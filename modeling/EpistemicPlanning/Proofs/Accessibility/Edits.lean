import EpistemicPlanning.Proofs.Accessibility.Built

/-!
# Edits of relations

Relations are edited by a sequence of operations, each of which may fail and then changes nothing
(`Accessibility.editAll`). Every node that has been introduced stays known, and each agent stores
the link from it to itself, except where this very link has been removed and no later edit has given
it back (`Accessibility.stores_loop_iff`).
-/
namespace EpistemicPlanning

variable {kind : HandleKind}

/-- An operation that changes a relation. -/
inductive Edit (kind : HandleKind) where
  | addAgent (a : Agent)
  | addNode (n : Handle kind)
  | addLink (a : Agent) (m n : Handle kind)
  | removeLink (a : Agent) (m n : Handle kind)
  | cutLink (a : Agent) (m n : Handle kind)
  | cutTouching (dead : SortedSet (Handle kind))
  | clearCuts
  deriving DecidableEq

namespace Accessibility

variable {r : Accessibility kind} {a b : Agent} {m n x y : Handle kind}
variable {e : Edit kind} {es es' : List (Edit kind)}

/-- What an edit makes of a relation, or how it fails. -/
def edit (r : Accessibility kind) : Edit kind → Except ModelError (Accessibility kind)
  | .addAgent a => .ok (r.addAgent a)
  | .addNode n => .ok (r.addNode n)
  | .addLink a m n => r.addLink a m n
  | .removeLink a m n => (r.removeLink a m n).map Prod.snd
  | .cutLink a m n => r.cutLink a m n
  | .cutTouching dead => .ok (r.cutTouching dead)
  | .clearCuts => .ok r.clearCuts

/-- The relation after an edit. One that fails leaves it as it was. -/
def edited (r : Accessibility kind) (e : Edit kind) : Accessibility kind :=
  match r.edit e with
  | .ok r' => r'
  | .error _ => r

/-- The relation after a sequence of edits. -/
def editAll (r : Accessibility kind) (es : List (Edit kind)) : Accessibility kind :=
  es.foldl edited r

/-- The nodes that an edit brings into a relation. -/
def introduces (r : Accessibility kind) : Edit kind → List (Handle kind)
  | .addNode n => [n]
  | .addLink a m n => if r.hasAgent a then [m, n] else []
  | _ => []

/-- The nodes that a sequence of edits brings into a relation. -/
def introducesAll (r : Accessibility kind) : List (Edit kind) → List (Handle kind)
  | [] => []
  | e :: es => r.introduces e ++ (r.edited e).introducesAll es

/-- The edit gives an agent the link from a node to itself, whether or not the agent has it. -/
def Loops (r : Accessibility kind) (a : Agent) (n : Handle kind) : Edit kind → Prop
  | .addAgent b => a = b ∧ n ∈ r.nodes
  | .addNode x => r.hasAgent a = true ∧ n = x
  | .addLink b x y => r.hasAgent a = true ∧ r.hasAgent b = true ∧ (n = x ∨ n = y)
  | _ => False

/-- Some edit of a sequence gives an agent the link from a node to itself. -/
def LoopsAmong (r : Accessibility kind) (a : Agent) (n : Handle kind) : List (Edit kind) → Prop
  | [] => False
  | e :: es => r.Loops a n e ∨ (r.edited e).LoopsAmong a n es

/-- Whenever an edit of a sequence removes the link of an agent from a node to itself, a later one
gives it back. -/
def GivesBack (r : Accessibility kind) (a : Agent) (n : Handle kind) (es : List (Edit kind)) :
    Prop :=
  ∀ before after, es = before ++ .removeLink a n n :: after →
    (r.editAll (before ++ [.removeLink a n n])).LoopsAmong a n after

/-! ### One edit -/

theorem edited_of_ok {r' : Accessibility kind} (h : r.edit e = .ok r') : r.edited e = r' := by
  rw [edited, h]

theorem edited_of_error {err : ModelError} (h : r.edit e = .error err) : r.edited e = r := by
  rw [edited, h]

theorem edited_addLink : (r.hasAgent b = true ∧ r.edited (.addLink b x y) = r.link b x y) ∨
    (r.hasAgent b = false ∧ r.edited (.addLink b x y) = r) := by
  cases hb : r.hasAgent b with
  | true => exact Or.inl ⟨rfl, edited_of_ok (addLink_eq_ok hb)⟩
  | false =>
    have hedit : r.edit (.addLink b x y) = .error (.agentNotFound b) := by
      rw [edit, addLink, linksOf_eq_error hb]
      rfl
    exact Or.inr ⟨rfl, edited_of_error hedit⟩

theorem edited_removeLink :
    (∃ removed, r.removeLink b x y = .ok (removed, r.edited (.removeLink b x y))) ∨
      (r.hasAgent b = false ∧ r.edited (.removeLink b x y) = r) := by
  cases hremove : r.removeLink b x y with
  | ok result =>
    have hedit : r.edit (.removeLink b x y) = .ok result.2 := by
      rw [edit, hremove]
      rfl
    exact Or.inl ⟨result.1, by rw [edited_of_ok hedit]⟩
  | error err =>
    have hedit : r.edit (.removeLink b x y) = .error err := by
      rw [edit, hremove]
      rfl
    refine Or.inr ⟨?_, edited_of_error hedit⟩
    by_contra hb
    rw [removeLink, linksOf_eq_ok (Bool.not_eq_false _ ▸ hb)] at hremove
    cases hremove

/-- Cutting a link, or failing to, leaves the nodes and the links alone. -/
theorem edited_cutLink : (r.edited (.cutLink b x y)).nodes = r.nodes ∧
    (r.edited (.cutLink b x y)).links = r.links := by
  cases hcut : r.edit (.cutLink b x y) with
  | ok r' =>
    rw [edited_of_ok hcut]
    obtain ⟨_, _, rfl⟩ := Fallible.map_eq_ok hcut
    exact ⟨rfl, rfl⟩
  | error err =>
    rw [edited_of_error hcut]
    exact ⟨rfl, rfl⟩

theorem mem_nodes_edited : n ∈ (r.edited e).nodes ↔ n ∈ r.nodes ∨ n ∈ r.introduces e := by
  cases e with
  | addNode x =>
    rw [introduces, List.mem_singleton, or_comm]
    exact mem_nodes_addNode
  | addLink b x y =>
    rcases @edited_addLink _ r b x y with ⟨hb, h⟩ | ⟨hb, h⟩
    · rw [h, mem_nodes_link, introduces, if_pos hb, List.mem_pair]
      tauto
    · simp [h, introduces, hb]
  | removeLink b x y =>
    rcases @edited_removeLink _ r b x y with ⟨_, h⟩ | ⟨_, h⟩
    · simp [nodes_removeLink h, introduces]
    · simp [h, introduces]
  | cutLink b x y => simp [edited_cutLink.1, introduces]
  | _ => exact (or_iff_left List.not_mem_nil).symm

theorem hasAgent_edited :
    (r.edited e).hasAgent a = true ↔ r.hasAgent a = true ∨ e = .addAgent a := by
  cases e with
  | addAgent b =>
    rw [Edit.addAgent.injEq, or_comm, eq_comm (a := b)]
    exact hasAgent_addAgent
  | addNode x => simp [edited, edit]
  | addLink b x y =>
    rcases @edited_addLink _ r b x y with ⟨_, h⟩ | ⟨_, h⟩ <;> simp [h]
  | removeLink b x y =>
    rcases @edited_removeLink _ r b x y with ⟨_, h⟩ | ⟨_, h⟩
    · simp [hasAgent_removeLink h]
    · simp [h]
  | cutLink b x y => simp [hasAgent, edited_cutLink.2]
  | _ => simp [edited, edit, hasAgent, cutTouching, clearCuts]

/-- After an edit, an agent stores the link from a node to itself if the edit gives it, or if the
agent has stored it before and the edit does not remove it. -/
theorem adjacent_self_edited : (r.edited e).Adjacent a n n ↔
    r.Loops a n e ∨ (r.Adjacent a n n ∧ e ≠ .removeLink a n n) := by
  cases e with
  | addAgent b =>
    have hadd : (r.edited (.addAgent b)).Adjacent a n n ↔ _ := adjacent_addAgent
    simp [hadd, Loops, or_comm]
  | addNode x =>
    have hadd : (r.edited (.addNode x)).Adjacent a n n ↔ _ := adjacent_addNode
    simp [hadd, Loops, or_comm]
  | addLink b x y =>
    rcases @edited_addLink _ r b x y with ⟨hb, h⟩ | ⟨hb, h⟩
    · rw [h, adjacent_link, adjacent_addNode, adjacent_addNode, hasAgent_addNode, Link.of_self,
        eq_comm (a := Link.loop n), Link.of_eq_loop_iff]
      simp only [Loops, hb, true_and, and_self, ne_eq, reduceCtorEq, not_false_eq_true, and_true]
      constructor
      · rintro (((h | ⟨ha, rfl⟩) | ⟨ha, rfl⟩) | ⟨rfl, rfl, rfl⟩)
        · exact Or.inr h
        · exact Or.inl ⟨ha, Or.inl rfl⟩
        · exact Or.inl ⟨ha, Or.inr rfl⟩
        · exact Or.inl ⟨hb, Or.inl rfl⟩
      · rintro (⟨ha, rfl | rfl⟩ | h)
        · exact Or.inl (Or.inl (Or.inr ⟨ha, rfl⟩))
        · exact Or.inl (Or.inr ⟨ha, rfl⟩)
        · exact Or.inl (Or.inl (Or.inl h))
    · simp [h, Loops, hb]
  | removeLink b x y =>
    rcases @edited_removeLink _ r b x y with ⟨_, h⟩ | ⟨hb, h⟩
    · rw [adjacent_removeLink h, Link.of_self, eq_comm (a := Link.loop n), Link.of_eq_loop_iff]
      simp [Loops, eq_comm (a := b)]
    · simp only [h, Loops, false_or]
      refine ⟨fun hadj => ⟨hadj, ?_⟩, And.left⟩
      rintro ⟨rfl, rfl, rfl⟩
      obtain ⟨ls, hls, _⟩ := hadj
      rw [hasAgent_iff.2 ⟨ls, hls⟩] at hb
      cases hb
  | cutLink b x y => simp [Adjacent, edited_cutLink.2, Loops]
  | cutTouching dead => simp [edited, edit, Adjacent, cutTouching, Loops]
  | clearCuts => simp [edited, edit, Adjacent, clearCuts, Loops]

theorem Loops.hasAgent_edited (h : r.Loops a n e) : (r.edited e).hasAgent a = true := by
  rw [Accessibility.hasAgent_edited]
  cases e with
  | addAgent b => exact Or.inr (h.1 ▸ rfl)
  | addNode x => exact Or.inl h.1
  | addLink b x y => exact Or.inl h.1
  | _ => exact h.elim

theorem Loops.mem_nodes_edited (h : r.Loops a n e) : n ∈ (r.edited e).nodes := by
  rw [Accessibility.mem_nodes_edited]
  cases e with
  | addAgent b => exact Or.inl h.2
  | addNode x => exact Or.inr (List.mem_singleton.2 h.2)
  | addLink b x y => exact Or.inr (by simpa [introduces, h.2.1] using h.2.2)
  | _ => exact h.elim

/-- An agent and a node meet for the first time only by an edit that gives the agent the link from
the node to itself. -/
theorem loops_of_meet (ha : (r.edited e).hasAgent a = true) (hn : n ∈ (r.edited e).nodes) :
    r.Loops a n e ∨ (r.hasAgent a = true ∧ n ∈ r.nodes) := by
  rcases hasAgent_edited.1 ha with hknown | rfl
  · rcases mem_nodes_edited.1 hn with hold | hnew
    · exact Or.inr ⟨hknown, hold⟩
    · cases e with
      | addNode x => exact Or.inl ⟨hknown, List.mem_singleton.1 hnew⟩
      | addLink b x y =>
        cases hb : r.hasAgent b with
        | true => exact Or.inl ⟨hknown, hb, by simpa [introduces, hb] using hnew⟩
        | false => simp [introduces, hb] at hnew
      | _ => cases hnew
  · exact Or.inl ⟨rfl, (mem_nodes_edited.1 hn).resolve_right List.not_mem_nil⟩

/-! ### Sequences of edits -/

theorem editAll_append : r.editAll (es ++ es') = (r.editAll es).editAll es' :=
  List.foldl_append

theorem editAll_snoc : r.editAll (es ++ [e]) = (r.editAll es).edited e :=
  editAll_append

theorem mem_nodes_editAll : n ∈ (r.editAll es).nodes ↔ n ∈ r.nodes ∨ n ∈ r.introducesAll es := by
  induction es generalizing r with
  | nil => exact (or_iff_left List.not_mem_nil).symm
  | cons e es ih =>
    rw [introducesAll, List.mem_append, ← or_assoc, ← mem_nodes_edited]
    exact ih

theorem loopsAmong_snoc :
    r.LoopsAmong a n (es ++ [e]) ↔ r.LoopsAmong a n es ∨ (r.editAll es).Loops a n e := by
  induction es generalizing r with
  | nil => exact or_comm
  | cons e' es ih => exact (or_congr_right ih).trans or_assoc.symm

theorem givesBack_nil : r.GivesBack a n [] := fun before _ heq => by
  cases before <;> cases heq

/-- With one more edit, the link is given back after each removal if this edit is not a removal of it
and either gives the link itself or comes after edits that have given it back. -/
theorem givesBack_snoc : r.GivesBack a n (es ++ [e]) ↔
    e ≠ .removeLink a n n ∧ ((r.editAll es).Loops a n e ∨ r.GivesBack a n es) := by
  constructor
  · intro h
    refine ⟨fun he => h es [] (he ▸ rfl), or_iff_not_imp_left.2 ?_⟩
    rintro hloops before after rfl
    have hlater := loopsAmong_snoc.1 (h before (after ++ [e]) (by simp))
    rw [← editAll_append, List.append_assoc, List.singleton_append] at hlater
    exact hlater.resolve_right hloops
  · rintro ⟨he, h⟩ before after heq
    rcases after.eq_nil_or_concat' with rfl | ⟨after, e', rfl⟩
    · exact absurd (List.singleton_inj.1 (List.append_inj_right' heq rfl)) he
    · rw [← List.cons_append, ← List.append_assoc] at heq
      obtain ⟨rfl, hlast⟩ := List.append_inj' heq rfl
      obtain rfl := List.singleton_inj.1 hlast
      rw [loopsAmong_snoc, ← editAll_append, List.append_assoc, List.singleton_append]
      exact h.symm.imp_left fun hback => hback before after rfl

/-- If the agents of a relation store the link of each of its nodes to itself, then after a sequence
of edits an agent still stores such a link unless it has been removed and not given back. -/
theorem adjacent_self_editAll
    (h : ∀ a n, r.Adjacent a n n ↔ r.hasAgent a = true ∧ n ∈ r.nodes) :
    (r.editAll es).Adjacent a n n ↔
      ((r.editAll es).hasAgent a = true ∧ n ∈ (r.editAll es).nodes) ∧ r.GivesBack a n es := by
  induction es using List.reverseRecOn with
  | nil => exact (h a n).trans (and_iff_left givesBack_nil).symm
  | append_singleton es e ih =>
    rw [editAll_snoc, adjacent_self_edited, ih, givesBack_snoc]
    constructor
    · rintro (hloops | ⟨⟨⟨ha, hn⟩, hback⟩, he⟩)
      · refine ⟨⟨hloops.hasAgent_edited, hloops.mem_nodes_edited⟩, ?_, Or.inl hloops⟩
        rintro rfl
        exact hloops
      · exact ⟨⟨hasAgent_edited.2 (Or.inl ha), mem_nodes_edited.2 (Or.inl hn)⟩, he, Or.inr hback⟩
    · rintro ⟨⟨ha, hn⟩, he, hback⟩
      rcases loops_of_meet ha hn with hloops | hmet
      · exact Or.inl hloops
      · exact hback.imp_right fun hback => ⟨⟨hmet, hback⟩, he⟩

theorem containsLink_eq_ok (ha : r.hasAgent a = true) :
    ∃ stored, r.containsLink a m n = .ok stored ∧ (stored = true ↔ r.Adjacent a m n) := by
  refine ⟨((r.links.find? a).getD ∅).contains (.of m n), ?_, ?_⟩
  · rw [containsLink, linksOf_eq_ok ha]
    rfl
  · rw [SortedSet.contains_iff, mem_links_iff_adjacent]

/-- In a relation made by edits, every agent stores the link from a node to itself, for each node
that has ever been introduced, just if no edit has removed it without a later one giving it back. -/
theorem stores_loop_iff {agents : List Agent} {nodes : List (Handle kind)}
    (ha : ((discrete agents nodes).editAll es).hasAgent a = true)
    (hn : n ∈ nodes ∨ n ∈ (discrete agents nodes).introducesAll es) :
    ∃ stored, ((discrete agents nodes).editAll es).containsLink a n n = .ok stored ∧
      (stored = true ↔ (discrete agents nodes).GivesBack a n es) := by
  have hloops : ∀ a n, (discrete agents nodes).Adjacent a n n ↔
      (discrete agents nodes).hasAgent a = true ∧ n ∈ (discrete agents nodes).nodes := by
    intro a n
    rw [adjacent_discrete, hasAgent_discrete, mem_nodes_discrete]
    exact and_congr_right fun _ => and_iff_right rfl
  have hseen : n ∈ ((discrete agents nodes).editAll es).nodes :=
    mem_nodes_editAll.2 (hn.imp_left mem_nodes_discrete.2)
  obtain ⟨stored, heq, hstored⟩ := containsLink_eq_ok (m := n) (n := n) ha
  refine ⟨stored, heq, hstored.trans ((adjacent_self_editAll hloops).trans ?_)⟩
  exact and_iff_right ⟨ha, hseen⟩

end Accessibility

/-!
### A hermit

One agent and one node to begin with.
-/
namespace Hermit

def hermit : Agent := ⟨"hermit"⟩

def visitor : Agent := ⟨"visitor"⟩

def cell (i : Nat) : WorldId := ⟨i⟩

def relation : Accessibility .world := .discrete [hermit] [cell 0]

/-- The hermit's link from the first node to itself is removed. Neither a link of a visitor whom the
relation does not know nor the visitor's arrival gives it back; another link of the hermit does. -/
def edits : List (Edit .world) :=
  [.removeLink hermit (cell 0) (cell 0), .addLink visitor (cell 0) (cell 2), .addAgent visitor,
    .addLink hermit (cell 0) (cell 1)]

theorem hermit_regains_loop :
    (relation.editAll edits).hasAgent hermit = true ∧
    (relation.editAll edits).containsLink hermit (cell 0) (cell 0) = .ok true ∧
    relation.GivesBack hermit (cell 0) edits := by
  have hstored : (relation.editAll edits).containsLink hermit (cell 0) (cell 0) = .ok true := by
    decide
  have hgiven : ∃ stored,
      (relation.editAll edits).containsLink hermit (cell 0) (cell 0) = .ok stored ∧
        (stored = true ↔ relation.GivesBack hermit (cell 0) edits) :=
    Accessibility.stores_loop_iff (by decide) (by decide)
  obtain ⟨stored, heq, hiff⟩ := hgiven
  exact ⟨by decide, hstored, hiff.1 (Except.ok.inj (heq.symm.trans hstored))⟩

/-- The link of a known node to itself is removed like any other. -/
theorem hermit_loses_loop :
    (relation.editAll [.removeLink hermit (cell 0) (cell 0)]).hasAgent hermit = true ∧
    cell 0 ∈ (relation.editAll [.removeLink hermit (cell 0) (cell 0)]).nodes ∧
    (relation.editAll [.removeLink hermit (cell 0) (cell 0)]).containsLink hermit (cell 0)
      (cell 0) = .ok false := by
  decide

end Hermit

end EpistemicPlanning
