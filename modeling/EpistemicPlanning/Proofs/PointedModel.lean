import EpistemicPlanning.PointedModel
import EpistemicPlanning.Proofs.Accessibility.Built

/-!
# Well-formed pointed models

What `PointedModel.ofParts` accepts is well formed: nodes are listed once, and everything else
speaks of listed nodes only. No chain of links leads out of a well-formed model
(`WellFormed.possible_of_joined`), and seeing it as one of its agents keeps it well formed.
-/
namespace EpistemicPlanning

open Relation

variable {kind : HandleKind}

namespace Accessibility

variable {r : Accessibility kind} {a : Agent} {m n : Handle kind}

theorem mem_nodes_foldl_addNode {ns : List (Handle kind)} :
    n ∈ (ns.foldl addNode r).nodes ↔ n ∈ r.nodes ∨ n ∈ ns := by
  induction ns generalizing r with
  | nil => simp
  | cons x ns ih =>
    rw [List.foldl_cons, ih, mem_nodes_addNode, List.mem_cons]
    constructor
    · rintro ((h | h) | h)
      · exact Or.inr (Or.inl h)
      · exact Or.inl h
      · exact Or.inr (Or.inr h)
    · rintro (h | h | h)
      · exact Or.inl (Or.inr h)
      · exact Or.inl (Or.inl h)
      · exact Or.inr h

@[simp] theorem hasAgent_foldl_addNode {ns : List (Handle kind)} :
    (ns.foldl addNode r).hasAgent a = r.hasAgent a := by
  induction ns generalizing r with
  | nil => rfl
  | cons x ns ih => rw [List.foldl_cons, ih, hasAgent_addNode]

theorem cuts_foldl_addNode {ns : List (Handle kind)} : (ns.foldl addNode r).cuts = r.cuts := by
  induction ns generalizing r with
  | nil => rfl
  | cons x ns ih =>
    rw [List.foldl_cons, ih]
    rfl

theorem adjacent_foldl_addNode {ns : List (Handle kind)} :
    (ns.foldl addNode r).Adjacent a m n ↔
      r.Adjacent a m n ∨ (r.hasAgent a = true ∧ m = n ∧ m ∈ ns) := by
  induction ns generalizing r with
  | nil => simp
  | cons x ns ih =>
    rw [List.foldl_cons, ih, adjacent_addNode, hasAgent_addNode, List.mem_cons]
    constructor
    · rintro ((h | ⟨ha, rfl, rfl⟩) | ⟨ha, h, hm⟩)
      · exact Or.inl h
      · exact Or.inr ⟨ha, rfl, Or.inl rfl⟩
      · exact Or.inr ⟨ha, h, Or.inr hm⟩
    · rintro (h | ⟨ha, rfl, rfl | hm⟩)
      · exact Or.inl (Or.inl h)
      · exact Or.inl (Or.inr ⟨ha, rfl, rfl⟩)
      · exact Or.inr ⟨ha, rfl, hm⟩

/-- Adding a node that is there already, with its links to itself, changes nothing. -/
theorem addNode_eq_self {x : Handle kind} (hx : x ∈ r.nodes)
    (hloops : ∀ a, r.hasAgent a = true → r.Adjacent a x x) : r.addNode x = r := by
  have hlinks : (r.links.mapValues fun _ ls => ls.insert (.loop x)) = r.links := by
    refine SortedMap.mapValues_eq_self fun ⟨a, ls⟩ he => ?_
    have hfind := SortedMap.find?_eq_some_iff.2 he
    obtain ⟨ls', hls', hloop⟩ := hloops a (hasAgent_iff.2 ⟨ls, hfind⟩)
    rw [hfind] at hls'
    cases hls'
    rw [Link.of_self] at hloop
    exact SortedSet.insert_eq_self hloop
  rw [addNode, SortedSet.insert_eq_self hx, hlinks]

theorem foldl_addNode_eq_self {ns : List (Handle kind)} (hns : ∀ x ∈ ns, x ∈ r.nodes)
    (hloops : ∀ a, r.hasAgent a = true → ∀ x ∈ ns, r.Adjacent a x x) :
    ns.foldl addNode r = r := by
  induction ns with
  | nil => rfl
  | cons x ns ih =>
    rw [List.foldl_cons, addNode_eq_self (hns x List.mem_cons_self)
      fun a hag => hloops a hag x List.mem_cons_self]
    exact ih (fun y hy => hns y (List.mem_cons_of_mem _ hy))
      fun a hag y hy => hloops a hag y (List.mem_cons_of_mem _ hy)

end Accessibility

namespace PointedModel

/-- Possible nodes are listed once; the relation knows exactly them, and only they are designated
and linked. Every agent links each of them to itself. -/
structure WellFormed (m : PointedModel kind) : Prop where
  nodup : m.possible.Nodup
  designated_possible : ∀ n ∈ m.designated, n ∈ m.possible
  nodes_iff : ∀ n, n ∈ m.relation.nodes ↔ n ∈ m.possible
  endsKnown : m.relation.EndsKnown
  loops : ∀ a, m.relation.hasAgent a = true → ∀ n ∈ m.possible, m.relation.Adjacent a n n

variable {m m' : PointedModel kind} {a : Agent} {n n' : Handle kind}

theorem WellFormed.possible_of_joined (h : m.WellFormed) (hn : n ∈ m.possible)
    (hjoin : ReflTransGen (m.relation.Adjacent a) n n') : n' ∈ m.possible := by
  induction hjoin with
  | refl => exact hn
  | tail _ hadj _ => exact (h.nodes_iff _).1 (h.endsKnown _ _ _ hadj).2

theorem WellFormed.possible_of_accessible (h : m.WellFormed) (hn : n ∈ m.possible)
    {ns : SortedSet (Handle kind)} (hns : m.relation.accessible a n = .ok ns) (hn' : n' ∈ ns) :
    n' ∈ m.possible :=
  h.possible_of_joined hn ((Accessibility.mem_of_accessible hns).1 hn')

/-- A model made of parts has the listed nodes and designated nodes, and the relation extended to
all listed nodes. -/
theorem ofParts_eq_ok {possible : List (Handle kind)} {designated : SortedSet (Handle kind)}
    {relation : Accessibility kind} (h : ofParts possible designated relation = .ok m) :
    possible.Nodup ∧ (∀ n ∈ designated, n ∈ possible) ∧ (∀ n ∈ relation.nodes, n ∈ possible) ∧
      m = ⟨possible, designated, possible.foldl Accessibility.addNode relation⟩ := by
  unfold ofParts at h
  split at h
  · next hnodup =>
    split at h
    · cases h
    · next hdes =>
      split at h
      · cases h
      · next hrel =>
        refine ⟨hnodup, fun n hn => ?_, fun n hn => ?_, (Except.ok.inj h).symm⟩
        · simpa using List.find?_eq_none.1 hdes n hn
        · simpa using List.find?_eq_none.1 hrel n hn
  · cases h

theorem wellFormed_of_endsKnown {possible : List (Handle kind)}
    {designated : SortedSet (Handle kind)} {relation : Accessibility kind}
    (hends : relation.EndsKnown) (h : ofParts possible designated relation = .ok m) :
    m.WellFormed := by
  obtain ⟨hnodup, hdes, hrel, rfl⟩ := ofParts_eq_ok h
  have hnodes : ∀ n, n ∈ (possible.foldl Accessibility.addNode relation).nodes ↔ n ∈ possible := by
    intro n
    rw [Accessibility.mem_nodes_foldl_addNode]
    exact ⟨fun h => h.elim (hrel n) id, Or.inr⟩
  refine ⟨hnodup, hdes, hnodes, ?_, ?_⟩
  · intro a m n hadj
    rcases Accessibility.adjacent_foldl_addNode.1 hadj with hadj | ⟨_, rfl, hm⟩
    · have hends := hends a m n hadj
      exact ⟨(hnodes m).2 (hrel m hends.1), (hnodes n).2 (hrel n hends.2)⟩
    · exact ⟨(hnodes m).2 hm, (hnodes m).2 hm⟩
  · intro a ha n hn
    rw [Accessibility.hasAgent_foldl_addNode] at ha
    exact Accessibility.adjacent_foldl_addNode.2 (Or.inr ⟨ha, rfl, hn⟩)

theorem wellFormed_of_ofParts {possible : List (Handle kind)}
    {designated : SortedSet (Handle kind)} {relation : Accessibility kind}
    (hbuilt : relation.Built) (h : ofParts possible designated relation = .ok m) :
    m.WellFormed :=
  wellFormed_of_endsKnown hbuilt.endsKnown h

theorem WellFormed.loop_mem_iff (h : m.WellFormed) {ls : SortedSet (Link kind)}
    (hls : (a, ls) ∈ m.relation.links.entries) : Link.loop n ∈ ls ↔ n ∈ m.possible := by
  have hfind := SortedMap.find?_eq_some_iff.2 hls
  have hagent : m.relation.hasAgent a = true := Accessibility.hasAgent_iff.2 ⟨ls, hfind⟩
  have hadjacent : m.relation.Adjacent a n n ↔ Link.loop n ∈ ls := by
    rw [← Accessibility.mem_links_iff_adjacent, hfind, Option.getD_some, Link.of_self]
  rw [← hadjacent]
  constructor
  · exact fun hadj => (h.nodes_iff n).1 (h.endsKnown a n n hadj).1
  · exact h.loops a hagent n

/-- A well-formed model is what its own parts make up. -/
theorem WellFormed.ofParts_eq (h : m.WellFormed) :
    ofParts m.possible m.designated m.relation = .ok m := by
  have hdesignated : (m.designated.toList.find? fun n => n ∉ m.possible) = none := by
    refine List.find?_eq_none.2 fun n hn => ?_
    simpa using h.designated_possible n hn
  have hnodes : (m.relation.nodes.toList.find? fun n => n ∉ m.possible) = none := by
    refine List.find?_eq_none.2 fun n hn => ?_
    simpa using (h.nodes_iff n).1 hn
  have hrelation : m.possible.foldl Accessibility.addNode m.relation = m.relation :=
    Accessibility.foldl_addNode_eq_self (fun n hn => (h.nodes_iff n).2 hn) h.loops
  unfold ofParts
  rw [if_pos h.nodup, hdesignated, hnodes]
  dsimp only
  rw [hrelation]

/-! ### Perspectives -/

theorem mem_spread {ns : List (Handle kind)} {s : SortedSet (Handle kind)}
    (h : m.spread a ns = .ok s) :
    n ∈ s ↔ ∃ n₀ ∈ ns, ReflTransGen (m.relation.Adjacent a) n₀ n := by
  induction ns generalizing s with
  | nil =>
    cases h
    simp
  | cons x ns ih =>
    rw [spread] at h
    obtain ⟨near, hnear, h⟩ := Fallible.bind_eq_ok h
    obtain ⟨others, hothers, h⟩ := Fallible.bind_eq_ok h
    cases h
    rw [SortedSet.mem_union, Accessibility.mem_of_accessible hnear, ih hothers]
    simp

/-- An agent's perspective only changes which nodes are designated: they are those that chains of
the agent's links join to a designated node. -/
theorem perspective_eq_ok (h : m.perspective a = .ok m') :
    m'.possible = m.possible ∧ m'.relation = m.relation ∧
      ∀ n, n ∈ m'.designated ↔
        ∃ n₀ ∈ m.designated, ReflTransGen (m.relation.Adjacent a) n₀ n := by
  obtain ⟨s, hs, rfl⟩ := Fallible.map_eq_ok h
  exact ⟨rfl, rfl, fun n => mem_spread hs⟩

theorem agents_of_perspective (h : m.perspective a = .ok m') : m'.agents = m.agents := by
  obtain ⟨_, hrelation, _⟩ := perspective_eq_ok h
  unfold agents
  rw [hrelation]

theorem WellFormed.perspective (hm : m.WellFormed) (h : m.perspective a = .ok m') :
    m'.WellFormed := by
  obtain ⟨hpossible, hrelation, hdesignated⟩ := perspective_eq_ok h
  refine ⟨hpossible ▸ hm.nodup, fun n hn => ?_, ?_, hrelation ▸ hm.endsKnown, ?_⟩
  · obtain ⟨n₀, hn₀, hjoin⟩ := (hdesignated n).1 hn
    rw [hpossible]
    exact hm.possible_of_joined (hm.designated_possible n₀ hn₀) hjoin
  · rw [hpossible, hrelation]
    exact hm.nodes_iff
  · rw [hpossible, hrelation]
    exact hm.loops

end PointedModel

end EpistemicPlanning
