import EpistemicPlanning.Proofs.Accessibility.Built
import EpistemicPlanning.Proofs.Accessibility.Cuts
import EpistemicPlanning.Proofs.Accessibility.Search

/-!
# What relations answer

In every relation, the nodes that an agent cannot tell apart are the components of its stored links,
and those that remain once cuts are respected the components of its uncut links
(`Accessibility.tells_components`). Cutting all links that touch dead nodes isolates exactly these:
between live nodes, the chains that avoid dead nodes are left
(`Accessibility.isolated_cutTouching`).
-/
namespace EpistemicPlanning

open Relation

namespace Accessibility

variable {kind : HandleKind} {r r' : Accessibility kind} {dead : SortedSet (Handle kind)}
variable {a b : Agent} {m n x y : Handle kind}

/-! ### Answers -/

theorem accessible_eq_ok (ha : r.hasAgent a = true) (n : Handle kind) :
    ∃ near, r.accessible a n = .ok near ∧ ∀ m, m ∈ near ↔ ReflTransGen (r.Adjacent a) n m :=
  ⟨_, reach_eq_ok ha .full, fun _ => mem_class_full⟩

theorem accessibleUncut_eq_ok (ha : r.hasAgent a = true) (n : Handle kind) :
    ∃ near, r.accessibleUncut a n = .ok near ∧
      ∀ m, m ∈ near ↔ ReflTransGen (r.UncutAdjacent a) n m :=
  ⟨_, reach_eq_ok ha .respectCuts, fun _ => mem_class_respectCuts⟩

theorem joined_of_joined_uncut (h : ReflTransGen (r.UncutAdjacent a) m n) :
    ReflTransGen (r.Adjacent a) m n :=
  ReflTransGen.mono (fun _ _ hstep => hstep.1) _ _ h

theorem equivalence_isRelated (ha : r.hasAgent a = true) :
    Equivalence fun m n => r.isRelated a m n = .ok true where
  refl _ := (isRelated_iff ha).2 .refl
  symm h := (isRelated_iff ha).2 (joined_symm ((isRelated_iff ha).1 h))
  trans h h' := (isRelated_iff ha).2 (((isRelated_iff ha).1 h).trans ((isRelated_iff ha).1 h'))

/-- What the queries of a relation tell for an agent, of any nodes, known to the relation or not,
are the components of links. -/
structure TellsComponents (r : Accessibility kind) (a : Agent) : Prop where
  accessible : ∀ n, ∃ near, r.accessible a n = .ok near ∧
    ∀ m, m ∈ near ↔ ReflTransGen (r.Adjacent a) n m
  related : ∀ m n, ∃ near, r.accessible a m = .ok near ∧ r.isRelated a m n = .ok (near.contains n)
  equivalence : Equivalence fun m n => r.isRelated a m n = .ok true
  uncut : ∀ n, ∃ near, r.accessibleUncut a n = .ok near ∧
    ∀ m, m ∈ near ↔ ReflTransGen (r.UncutAdjacent a) n m
  uncut_subset : ∀ n all near, r.accessible a n = .ok all → r.accessibleUncut a n = .ok near →
    ∀ m ∈ near, m ∈ all
  /-- Neither cutting nor clearing cuts changes what the agent cannot tell apart. -/
  cutLink : ∀ b x y r', r.cutLink b x y = .ok r' → ∀ n, r'.accessible a n = r.accessible a n
  cutTouching : ∀ dead n, (r.cutTouching dead).accessible a n = r.accessible a n
  clearCuts : ∀ n, r.clearCuts.accessible a n = r.accessible a n
  /-- Searching along the links finds the same, also when no search is made for a node from
  itself. -/
  search : ∀ n t, r.search a n t = r.reach a n t
  searchRelated : ∀ m n, r.searchRelated a m n = r.isRelated a m n

/-- For every agent of a relation, its queries tell the components of links. -/
theorem tells_components (ha : r.hasAgent a = true) : r.TellsComponents a where
  accessible := accessible_eq_ok ha
  related m n := ⟨_, reach_eq_ok ha .full, isRelated_eq_ok ha⟩
  equivalence := equivalence_isRelated ha
  uncut := accessibleUncut_eq_ok ha
  uncut_subset n all near hall hnear m hm := by
    obtain ⟨near', hnear', hmem⟩ := accessibleUncut_eq_ok ha n
    rw [hnear] at hnear'
    cases hnear'
    exact (mem_of_accessible hall).2 (joined_of_joined_uncut ((hmem m).1 hm))
  cutLink b x y r' h n := by
    obtain ⟨_, _, rfl⟩ := Fallible.map_eq_ok h
    rfl
  cutTouching _ _ := rfl
  clearCuts _ := rfl
  search := r.search_eq_reach a
  searchRelated := r.searchRelated_eq a

/-! ### Isolated nodes -/

theorem LiveAdjacent.symm (h : r.LiveAdjacent dead a m n) : r.LiveAdjacent dead a n m :=
  ⟨h.1.symm, h.2.2, h.2.1⟩

instance : Std.Symm (r.LiveAdjacent dead a) := ⟨fun _ _ => LiveAdjacent.symm⟩

theorem joined_live_symm (h : ReflTransGen (r.LiveAdjacent dead a) m n) :
    ReflTransGen (r.LiveAdjacent dead a) n m :=
  symm_of (ReflTransGen (r.LiveAdjacent dead a)) h

/-- From a dead node that has been cut off, uncut links lead nowhere else. -/
theorem eq_of_joined_cutTouching (hm : m ∈ dead)
    (h : ReflTransGen ((r.clearCuts.cutTouching dead).UncutAdjacent a) m n) : n = m := by
  induction h with
  | refl => rfl
  | tail _ hstep ih =>
    rcases (uncutAdjacent_cutTouching.1 hstep).2 with heq | ⟨hlive, _⟩
    · exact heq ▸ ih
    · exact absurd (ih ▸ hm) hlive

/-- What an agent can still not tell apart from a live node, when dead nodes have been cut off. -/
theorem accessibleUncut_cutTouching (ha : r.hasAgent a = true) (hn : n ∉ dead) :
    ∃ near, (r.clearCuts.cutTouching dead).accessibleUncut a n = .ok near ∧
      ∀ m, m ∈ near ↔ ReflTransGen (r.LiveAdjacent dead a) n m := by
  obtain ⟨near, hnear, hmem⟩ := accessibleUncut_eq_ok (r := r.clearCuts.cutTouching dead) ha n
  exact ⟨near, hnear, fun m => (hmem m).trans (joined_cutTouching hn)⟩

theorem mem_accessibleUncut_cutTouching (ha : r.hasAgent a = true) (hn : n ∉ dead) :
    (∃ near, (r.clearCuts.cutTouching dead).accessibleUncut a n = .ok near ∧ m ∈ near) ↔
      ReflTransGen (r.LiveAdjacent dead a) n m := by
  obtain ⟨near, hnear, hmem⟩ := accessibleUncut_cutTouching ha hn
  rw [hnear, ← hmem m]
  simp

/-- `r'` is the relation `r` with the dead nodes, and only them, isolated for an agent. -/
structure Isolated (r r' : Accessibility kind) (dead : SortedSet (Handle kind)) (a : Agent) :
    Prop where
  alone : ∀ n ∈ dead, r'.accessibleUncut a n = .ok (.singleton n)
  /-- Live nodes that are joined through live nodes stay joined, and no others do. -/
  live : ∀ n ∉ dead, ∃ near, r'.accessibleUncut a n = .ok near ∧
    ∀ m, m ∈ near ↔ ReflTransGen (r.LiveAdjacent dead a) n m
  equivalence : Equivalence fun m n : { n // n ∉ dead } =>
    ∃ near, r'.accessibleUncut a m = .ok near ∧ n.1 ∈ near
  /-- Live nodes that cannot be told apart have the same nodes that cannot be told apart from
  them, all of them live. -/
  same : ∀ m ∉ dead, ∀ near, r'.accessibleUncut a m = .ok near → ∀ n ∈ near,
    n ∉ dead ∧ r'.accessibleUncut a n = .ok near
  nodes : r'.nodes = r.nodes
  links : r'.links = r.links
  accessible : ∀ n, r'.accessible a n = r.accessible a n

/-- Without earlier cuts, cutting all links that touch dead nodes isolates exactly these. -/
theorem isolated_cutTouching (ha : r.hasAgent a = true) :
    r.Isolated (r.clearCuts.cutTouching dead) dead a where
  alone n hn := by
    obtain ⟨near, hnear, hmem⟩ := accessibleUncut_eq_ok (r := r.clearCuts.cutTouching dead) ha n
    rw [hnear]
    refine congrArg Except.ok (SortedSet.ext fun m => ?_)
    rw [hmem, SortedSet.mem_singleton]
    exact ⟨eq_of_joined_cutTouching hn, fun heq => heq ▸ .refl⟩
  live n hn := accessibleUncut_cutTouching ha hn
  equivalence := by
    refine ⟨fun m => ?_, fun {m n} h => ?_, fun {m n k} h h' => ?_⟩
    · exact (mem_accessibleUncut_cutTouching ha m.2).2 .refl
    · rw [mem_accessibleUncut_cutTouching ha m.2] at h
      exact (mem_accessibleUncut_cutTouching ha n.2).2 (joined_live_symm h)
    · rw [mem_accessibleUncut_cutTouching ha m.2] at h
      rw [mem_accessibleUncut_cutTouching ha n.2] at h'
      exact (mem_accessibleUncut_cutTouching ha m.2).2 (h.trans h')
  same m hm near hnear n hn := by
    obtain ⟨near₁, hnear₁, hmem₁⟩ := accessibleUncut_cutTouching ha hm
    rw [hnear] at hnear₁
    cases hnear₁
    have hjoin := (hmem₁ n).1 hn
    have hlive := not_mem_of_joined_live hm hjoin
    obtain ⟨near₂, hnear₂, hmem₂⟩ := accessibleUncut_cutTouching ha hlive
    refine ⟨hlive, hnear₂.trans (congrArg Except.ok (SortedSet.ext fun k => ?_))⟩
    rw [hmem₁, hmem₂]
    exact ⟨hjoin.trans, (joined_live_symm hjoin).trans⟩
  nodes := rfl
  links := rfl
  accessible _ := rfl

end Accessibility

/-!
### A ring

Four nodes in a ring, and a fifth one that hangs on the second.
-/
namespace Ring

def watcher : Agent := ⟨"watcher"⟩

def node (i : Nat) : WorldId := ⟨i⟩

/-- The watcher takes each node for the next one, and the second for the fifth. -/
def relation : Accessibility .world :=
  (((((Accessibility.discrete [watcher] ((List.range 5).map node)).link watcher (node 0)
    (node 1)).link watcher (node 1) (node 2)).link watcher (node 2) (node 3)).link watcher (node 3)
    (node 0)).link watcher (node 4) (node 1)

/-- The relation with the links of the first node cut. -/
def cracked : Accessibility .world := relation.cutTouching (.singleton (node 0))

/-- Cuts do not change what the watcher takes for the first node; without the cut links, it is on
its own, as is a node that the relation has never seen. -/
theorem watcher_tells_components :
    cracked.hasAgent watcher = true ∧ cracked.TellsComponents watcher ∧
    cracked.accessible watcher (node 0) = .ok (.ofList ((List.range 5).map node)) ∧
    cracked.accessibleUncut watcher (node 0) = .ok (.singleton (node 0)) ∧
    cracked.isRelated watcher (node 7) (node 7) = .ok true ∧
    cracked.isRelated watcher (node 7) (node 0) = .ok false :=
  ⟨by decide, Accessibility.tells_components (by decide), by decide, by decide, by decide,
    by decide⟩

/-- Once the second node is cut off, the fifth is on its own, and the others are joined the other
way round. -/
theorem second_isolated : relation.hasAgent watcher = true ∧
    relation.Isolated (relation.clearCuts.cutTouching (.singleton (node 1))) (.singleton (node 1))
      watcher ∧
    (relation.clearCuts.cutTouching (.singleton (node 1))).accessibleUncut watcher (node 0) =
      .ok (.ofList [node 0, node 2, node 3]) ∧
    (relation.clearCuts.cutTouching (.singleton (node 1))).accessibleUncut watcher (node 4) =
      .ok (.singleton (node 4)) :=
  ⟨by decide, Accessibility.isolated_cutTouching (by decide), by decide, by decide⟩

end Ring

end EpistemicPlanning
