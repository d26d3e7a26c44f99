import EpistemicPlanning.Proofs.Accessibility.Components
import EpistemicPlanning.Proofs.Fallible

/-!
# Relations and how they are built

The relations that the operations of `Accessibility` assemble (`Accessibility.Built`) only ever
link nodes that they know (`Accessibility.Built.endsKnown`). Each operation is described by the
links it leaves stored.
-/
namespace EpistemicPlanning

variable {kind : HandleKind}

@[simp] theorem Link.of_eq_loop_iff {m n x : Handle kind} :
    Link.of m n = Link.loop x ↔ m = x ∧ n = x := by
  rw [Link.of_eq_iff]
  constructor
  · rintro (⟨h, h'⟩ | ⟨h, h'⟩)
    · exact ⟨h.symm, h'.symm⟩
    · exact ⟨h'.symm, h.symm⟩
  · rintro ⟨rfl, rfl⟩
    exact Or.inl ⟨rfl, rfl⟩

/-- The ends of a link are the two nodes, one way round or the other. -/
theorem Link.ends_of (m n : Handle kind) :
    (Link.of m n).low = m ∧ (Link.of m n).high = n ∨
      (Link.of m n).low = n ∧ (Link.of m n).high = m :=
  Link.of_eq_iff.1 rfl

theorem Link.eq_end_of_iff {m n x : Handle kind} :
    x = (Link.of m n).low ∨ x = (Link.of m n).high ↔ x = m ∨ x = n := by
  rcases Link.ends_of m n with ⟨hl, hh⟩ | ⟨hl, hh⟩
  · rw [hl, hh]
  · rw [hl, hh, or_comm]

theorem Link.of_eq_of_iff {m n x y : Handle kind} :
    Link.of m n = Link.of x y ↔ (m = x ∧ n = y) ∨ (m = y ∧ n = x) := by
  rw [Link.of_eq_iff]
  constructor
  · rintro (⟨h, h'⟩ | ⟨h, h'⟩)
    · rcases Link.ends_of x y with ⟨hx, hy⟩ | ⟨hx, hy⟩
      · exact Or.inl ⟨h.symm.trans hx, h'.symm.trans hy⟩
      · exact Or.inr ⟨h.symm.trans hx, h'.symm.trans hy⟩
    · rcases Link.ends_of x y with ⟨hx, hy⟩ | ⟨hx, hy⟩
      · exact Or.inr ⟨h'.symm.trans hy, h.symm.trans hx⟩
      · exact Or.inl ⟨h'.symm.trans hy, h.symm.trans hx⟩
  · intro h
    rcases Link.ends_of x y with ⟨hx, hy⟩ | ⟨hx, hy⟩ <;>
      rcases h with ⟨rfl, rfl⟩ | ⟨rfl, rfl⟩ <;> simp [hx, hy]

namespace Accessibility

variable {r r' : Accessibility kind} {a b : Agent} {m n x y : Handle kind}

/-! ### What each operation stores -/

theorem find?_addAgent :
    (r.addAgent b).links.find? a =
      if a = b then some (SortedSet.ofList (r.nodes.toList.map Link.loop) ∪
        (r.links.find? b).getD ∅) else r.links.find? a := by
  rw [addAgent, SortedMap.find?_upsert]

theorem adjacent_addAgent :
    (r.addAgent b).Adjacent a m n ↔ r.Adjacent a m n ∨ (a = b ∧ m = n ∧ m ∈ r.nodes) := by
  unfold Adjacent
  rw [find?_addAgent]
  by_cases hab : a = b
  · subst hab
    simp only [if_true, Option.some.injEq, exists_eq_left', SortedSet.mem_union,
      SortedSet.mem_ofList, List.mem_map, true_and]
    constructor
    · rintro (⟨x, hx, h⟩ | h)
      · obtain ⟨rfl, rfl⟩ := Link.of_eq_loop_iff.1 h.symm
        exact Or.inr ⟨rfl, hx⟩
      · exact Or.inl (mem_links_iff_adjacent.1 h)
    · rintro (h | ⟨rfl, hm⟩)
      · exact Or.inr (mem_links_iff_adjacent.2 h)
      · exact Or.inl ⟨m, hm, (Link.of_self m).symm⟩
  · simp [hab]

theorem adjacent_addNode :
    (r.addNode x).Adjacent a m n ↔
      r.Adjacent a m n ∨ (r.hasAgent a = true ∧ m = x ∧ n = x) := by
  unfold Adjacent
  rw [hasAgent_iff, addNode, SortedMap.find?_mapValues]
  cases r.links.find? a with
  | none => simp
  | some ls => simp [or_comm]

@[simp] theorem hasAgent_addNode : (r.addNode x).hasAgent a = r.hasAgent a := by
  simp [hasAgent, SortedMap.contains, addNode]

@[simp] theorem mem_nodes_addNode : n ∈ (r.addNode x).nodes ↔ n = x ∨ n ∈ r.nodes :=
  SortedSet.mem_insert

theorem mem_nodes_link : n ∈ (r.link b x y).nodes ↔ n = y ∨ n = x ∨ n ∈ r.nodes := by
  simp [link]

theorem adjacent_link :
    (r.link b x y).Adjacent a m n ↔ ((r.addNode x).addNode y).Adjacent a m n ∨
      (a = b ∧ r.hasAgent b = true ∧ Link.of m n = Link.of x y) := by
  unfold Adjacent link
  simp only [SortedMap.find?_modify]
  by_cases hab : a = b
  · subst hab
    rw [if_pos rfl, ← hasAgent_addNode (x := x), ← hasAgent_addNode (x := y), hasAgent_iff]
    cases ((r.addNode x).addNode y).links.find? a with
    | none => simp
    | some ls => simp [or_comm]
  · simp [hab]

theorem nodes_removeLink {removed : Bool} (h : r.removeLink b x y = .ok (removed, r')) :
    r'.nodes = r.nodes := by
  obtain ⟨_, _, heq⟩ := Fallible.map_eq_ok h
  obtain rfl := (Prod.ext_iff.1 heq).2
  rfl

theorem hasAgent_removeLink {removed : Bool} (h : r.removeLink b x y = .ok (removed, r')) :
    r'.hasAgent a = r.hasAgent a := by
  obtain ⟨_, _, heq⟩ := Fallible.map_eq_ok h
  obtain rfl := (Prod.ext_iff.1 heq).2
  by_cases hab : a = b <;> simp [hasAgent, SortedMap.contains, hab]

theorem adjacent_removeLink {removed : Bool} (h : r.removeLink b x y = .ok (removed, r')) :
    r'.Adjacent a m n ↔ r.Adjacent a m n ∧ ¬(a = b ∧ Link.of m n = Link.of x y) := by
  obtain ⟨_, _, heq⟩ := Fallible.map_eq_ok h
  obtain rfl := (Prod.ext_iff.1 heq).2
  unfold Adjacent
  simp only [SortedMap.find?_modify]
  by_cases hab : a = b
  · subst hab
    rw [if_pos rfl]
    cases r.links.find? a with
    | none => simp
    | some ls => simp
  · simp [hab]

@[simp] theorem hasAgent_addAgent :
    (r.addAgent b).hasAgent a = true ↔ a = b ∨ r.hasAgent a = true := by
  by_cases hab : a = b <;> simp [hasAgent, SortedMap.contains, find?_addAgent, hab]

theorem nodes_foldl_addAgent {agents : List Agent} :
    (agents.foldl addAgent r).nodes = r.nodes := by
  induction agents generalizing r with
  | nil => rfl
  | cons b agents ih =>
    rw [List.foldl_cons, ih]
    rfl

theorem cuts_foldl_addAgent {agents : List Agent} :
    (agents.foldl addAgent r).cuts = r.cuts := by
  induction agents generalizing r with
  | nil => rfl
  | cons b agents ih =>
    rw [List.foldl_cons, ih]
    rfl

theorem hasAgent_foldl_addAgent {agents : List Agent} :
    (agents.foldl addAgent r).hasAgent a = true ↔ a ∈ agents ∨ r.hasAgent a = true := by
  induction agents generalizing r with
  | nil => simp
  | cons b agents ih =>
    rw [List.foldl_cons, ih, hasAgent_addAgent, List.mem_cons]
    exact or_left_comm.trans or_assoc.symm

theorem adjacent_foldl_addAgent {agents : List Agent} :
    (agents.foldl addAgent r).Adjacent a m n ↔
      r.Adjacent a m n ∨ (a ∈ agents ∧ m = n ∧ m ∈ r.nodes) := by
  induction agents generalizing r with
  | nil => simp
  | cons b agents ih =>
    rw [List.foldl_cons, ih, adjacent_addAgent, List.mem_cons, or_and_right, or_assoc]
    rfl

theorem hasAgent_discrete {agents : List Agent} {nodes : List (Handle kind)} :
    (discrete agents nodes).hasAgent a = true ↔ a ∈ agents :=
  hasAgent_foldl_addAgent.trans (or_iff_left Bool.false_ne_true)

theorem mem_nodes_discrete {agents : List Agent} {nodes : List (Handle kind)} :
    n ∈ (discrete agents nodes).nodes ↔ n ∈ nodes := by
  rw [discrete, nodes_foldl_addAgent]
  exact SortedSet.mem_ofList

theorem adjacent_discrete {agents : List Agent} {nodes : List (Handle kind)} :
    (discrete agents nodes).Adjacent a m n ↔ a ∈ agents ∧ m = n ∧ m ∈ nodes := by
  rw [discrete, adjacent_foldl_addAgent, SortedSet.mem_ofList]
  exact or_iff_right fun ⟨_, hls, _⟩ => nomatch hls

@[simp] theorem hasAgent_link : (r.link b x y).hasAgent a = r.hasAgent a := by
  by_cases hab : a = b <;> simp [hasAgent, SortedMap.contains, link, addNode, hab]

theorem addLink_eq_ok (h : r.hasAgent a = true) : r.addLink a m n = .ok (r.link a m n) := by
  rw [addLink, linksOf_eq_ok h]
  rfl

/-! ### Built relations -/

/-- The relations that the operations assemble, starting from one without further links. -/
inductive Built : Accessibility kind → Prop
  | discrete (agents : List Agent) (nodes : List (Handle kind)) : Built (discrete agents nodes)
  | addAgent {r : Accessibility kind} (h : Built r) (a : Agent) : Built (r.addAgent a)
  | addNode {r : Accessibility kind} (h : Built r) (n : Handle kind) : Built (r.addNode n)
  | addLink {r r' : Accessibility kind} {a : Agent} {m n : Handle kind} (h : Built r)
      (heq : r.addLink a m n = .ok r') : Built r'
  | removeLink {r r' : Accessibility kind} {a : Agent} {m n : Handle kind} {removed : Bool}
      (h : Built r) (heq : r.removeLink a m n = .ok (removed, r')) : Built r'
  | cutLink {r r' : Accessibility kind} {a : Agent} {m n : Handle kind} (h : Built r)
      (heq : r.cutLink a m n = .ok r') : Built r'
  | cutTouching {r : Accessibility kind} (h : Built r) (dead : SortedSet (Handle kind)) :
      Built (r.cutTouching dead)
  | clearCuts {r : Accessibility kind} (h : Built r) : Built r.clearCuts

/-- Every stored link is between nodes of the relation. -/
def EndsKnown (r : Accessibility kind) : Prop :=
  ∀ a m n, r.Adjacent a m n → m ∈ r.nodes ∧ n ∈ r.nodes

theorem EndsKnown.addAgent (h : r.EndsKnown) (b : Agent) : (r.addAgent b).EndsKnown := by
  intro a m n hadj
  rcases adjacent_addAgent.1 hadj with hadj | ⟨_, rfl, hm⟩
  · exact h a m n hadj
  · exact ⟨hm, hm⟩

theorem EndsKnown.addNode (h : r.EndsKnown) (x : Handle kind) : (r.addNode x).EndsKnown := by
  intro a m n hadj
  simp only [mem_nodes_addNode]
  rcases adjacent_addNode.1 hadj with hadj | ⟨_, rfl, rfl⟩
  · exact ⟨Or.inr (h a m n hadj).1, Or.inr (h a m n hadj).2⟩
  · exact ⟨Or.inl rfl, Or.inl rfl⟩

theorem EndsKnown.link (h : r.EndsKnown) (b : Agent) (x y : Handle kind) :
    (r.link b x y).EndsKnown := by
  intro a m n hadj
  rcases adjacent_link.1 hadj with hadj | ⟨_, _, heq⟩
  · exact ((h.addNode x).addNode y) a m n hadj
  · simp only [mem_nodes_link]
    rcases Link.of_eq_of_iff.1 heq with ⟨rfl, rfl⟩ | ⟨rfl, rfl⟩ <;> simp

theorem EndsKnown.foldl_addAgent (h : r.EndsKnown) (agents : List Agent) :
    (agents.foldl Accessibility.addAgent r).EndsKnown := by
  induction agents generalizing r with
  | nil => exact h
  | cons a rest ih => exact ih (h.addAgent a)

theorem endsKnown_discrete (agents : List Agent) (nodes : List (Handle kind)) :
    (discrete agents nodes).EndsKnown := by
  refine EndsKnown.foldl_addAgent ?_ agents
  rintro a m n ⟨ls, hls, _⟩
  cases hls

theorem Built.endsKnown (h : r.Built) : r.EndsKnown := by
  induction h with
  | discrete agents nodes => exact endsKnown_discrete agents nodes
  | addAgent _ a ih => exact ih.addAgent a
  | addNode _ n ih => exact ih.addNode n
  | addLink _ heq ih =>
    obtain ⟨_, _, rfl⟩ := Fallible.map_eq_ok heq
    exact ih.link _ _ _
  | removeLink _ heq ih =>
    intro b m n hadj
    rw [nodes_removeLink heq]
    exact ih b m n ((adjacent_removeLink heq).1 hadj).1
  | cutLink _ heq ih =>
    obtain ⟨_, _, rfl⟩ := Fallible.map_eq_ok heq
    exact ih
  | cutTouching _ _ ih => exact ih
  | clearCuts _ ih => exact ih

end Accessibility

end EpistemicPlanning
