import Mathlib.Data.List.Induction
import Mathlib.Logic.Relation
import EpistemicPlanning.Accessibility
import EpistemicPlanning.Proofs.Ordered

/-!
# Components of links

`classes` merges classes link by link. What comes out are the connected components: a node is in
the class of another exactly when a chain of links, each taken in either direction, joins the two
(`mem_joinedTo`). For a relation this says which nodes an agent cannot tell apart
(`Accessibility.mem_class_full`), and which ones remain once links are cut
(`Accessibility.mem_class_respectCuts`).
-/
namespace EpistemicPlanning

open Relation

variable {kind : HandleKind}

theorem Link.of_low_high (l : Link kind) : Link.of l.low l.high = l := by
  unfold Link.of
  rw [dif_pos l.ordered]

/-- The ends of a link, in one order or the other. -/
theorem Link.of_eq_iff {m n : Handle kind} {l : Link kind} :
    Link.of m n = l ↔ (l.low = m ∧ l.high = n) ∨ (l.low = n ∧ l.high = m) := by
  constructor
  · rintro rfl
    unfold Link.of
    split
    · exact Or.inl ⟨rfl, rfl⟩
    · exact Or.inr ⟨rfl, rfl⟩
  · rintro (⟨rfl, rfl⟩ | ⟨rfl, rfl⟩)
    · exact l.of_low_high
    · rw [Link.of_comm]
      exact l.of_low_high

/-- One of the links joins two nodes. -/
def Linked (links : List (Link kind)) (m n : Handle kind) : Prop := Link.of m n ∈ links

theorem Linked.symm {links : List (Link kind)} {m n : Handle kind} (h : Linked links m n) :
    Linked links n m := by
  unfold Linked at *
  rwa [Link.of_comm]

/-! ### Classes that do not overlap -/

/-- No node is in two of the classes. -/
def NoOverlap (cs : List (SortedSet (Handle kind))) : Prop :=
  ∀ c ∈ cs, ∀ d ∈ cs, ∀ n, n ∈ c → n ∈ d → c = d

section

variable {cs : List (SortedSet (Handle kind))} {c : SortedSet (Handle kind)}
variable {l : Link kind} {m n : Handle kind}

theorem classOf_eq_or (cs : List (SortedSet (Handle kind))) (n : Handle kind) :
    (classOf cs n ∈ cs ∧ n ∈ classOf cs n) ∨
      (classOf cs n = SortedSet.singleton n ∧ ∀ c ∈ cs, n ∉ c) := by
  unfold classOf
  cases h : cs.find? fun c => c.contains n with
  | some c =>
    left
    have hn : c.contains n = true := by simpa using List.find?_some h
    exact ⟨List.mem_of_find?_eq_some h, SortedSet.contains_iff.1 hn⟩
  | none =>
    right
    refine ⟨rfl, fun c hc hn => ?_⟩
    have := List.find?_eq_none.1 h c hc
    simp [hn] at this

theorem self_mem_classOf : n ∈ classOf cs n := by
  rcases classOf_eq_or cs n with ⟨_, h⟩ | ⟨h, _⟩
  · exact h
  · rw [h]
    exact SortedSet.mem_singleton.2 rfl

theorem classOf_eq_of_mem (hcs : NoOverlap cs) (hc : c ∈ cs) (hn : n ∈ c) : classOf cs n = c := by
  rcases classOf_eq_or cs n with ⟨hmem, hself⟩ | ⟨_, hnone⟩
  · exact hcs _ hmem _ hc n hself hn
  · exact absurd hn (hnone c hc)

theorem classOf_congr (hcs : NoOverlap cs) (h : m ∈ classOf cs n) :
    classOf cs m = classOf cs n := by
  rcases classOf_eq_or cs n with ⟨hmem, _⟩ | ⟨hn, _⟩
  · exact classOf_eq_of_mem hcs hmem h
  · rw [hn, SortedSet.mem_singleton] at h
    rw [h]

theorem mem_classOf_comm (hcs : NoOverlap cs) : m ∈ classOf cs n ↔ n ∈ classOf cs m := by
  constructor
  · intro h
    rw [classOf_congr hcs h]
    exact self_mem_classOf
  · intro h
    rw [classOf_congr hcs h]
    exact self_mem_classOf

theorem eq_classOf_of_mem (hcs : NoOverlap cs) (hc : c ∈ cs) (hm : m ∈ c)
    (hmn : m ∈ classOf cs n) : c = classOf cs n := by
  rw [← classOf_congr hcs hmn, classOf_eq_of_mem hcs hc hm]

/-! ### One more link -/

theorem joinClasses_of_joined (h : l.high ∈ classOf cs l.low) : joinClasses cs l = cs := by
  unfold joinClasses
  simp [h]

theorem joinClasses_of_apart (h : l.high ∉ classOf cs l.low) :
    joinClasses cs l = (classOf cs l.low ∪ classOf cs l.high) ::
      cs.filter fun c => !c.contains l.low && !c.contains l.high := by
  unfold joinClasses
  simp [h]

/-- What stays beside the merged class shares no node with it. -/
theorem not_mem_of_mem_filter (hcs : NoOverlap cs)
    (hc : c ∈ cs.filter fun c => !c.contains l.low && !c.contains l.high)
    (hn : n ∈ classOf cs l.low ∪ classOf cs l.high) : n ∉ c := by
  intro hnc
  simp only [List.mem_filter, Bool.and_eq_true, Bool.not_eq_true'] at hc
  obtain ⟨hmem, hlow, hhigh⟩ := hc
  rcases SortedSet.mem_union.1 hn with hn | hn
  · have hc' := eq_classOf_of_mem hcs hmem hnc hn
    have hin : l.low ∈ c := hc' ▸ self_mem_classOf
    simp [SortedSet.contains_iff.2 hin] at hlow
  · have hc' := eq_classOf_of_mem hcs hmem hnc hn
    have hin : l.high ∈ c := hc' ▸ self_mem_classOf
    simp [SortedSet.contains_iff.2 hin] at hhigh

theorem noOverlap_joinClasses (hcs : NoOverlap cs) : NoOverlap (joinClasses cs l) := by
  by_cases hsame : l.high ∈ classOf cs l.low
  · rw [joinClasses_of_joined hsame]
    exact hcs
  · rw [joinClasses_of_apart hsame]
    intro c hc d hd n hnc hnd
    rcases List.mem_cons.1 hc with rfl | hc <;> rcases List.mem_cons.1 hd with rfl | hd
    · rfl
    · exact absurd hnd (not_mem_of_mem_filter hcs hd hnc)
    · exact absurd hnc (not_mem_of_mem_filter hcs hc hnd)
    · exact hcs c (List.mem_filter.1 hc).1 d (List.mem_filter.1 hd).1 n hnc hnd

theorem classOf_joinClasses_of_mem (hcs : NoOverlap cs) (hsame : l.high ∉ classOf cs l.low)
    (hm : m ∈ classOf cs l.low ∪ classOf cs l.high) :
    classOf (joinClasses cs l) m = classOf cs l.low ∪ classOf cs l.high := by
  have hhead : classOf cs l.low ∪ classOf cs l.high ∈ joinClasses cs l := by
    rw [joinClasses_of_apart hsame]
    exact List.mem_cons_self
  exact classOf_eq_of_mem (noOverlap_joinClasses hcs) hhead hm

theorem classOf_joinClasses_of_not_mem (hcs : NoOverlap cs) (hsame : l.high ∉ classOf cs l.low)
    (hm : m ∉ classOf cs l.low ∪ classOf cs l.high) :
    classOf (joinClasses cs l) m = classOf cs m := by
  have hjoin := joinClasses_of_apart hsame
  rcases classOf_eq_or cs m with ⟨hmem, hself⟩ | ⟨hsingle, hnone⟩
  · refine classOf_eq_of_mem (noOverlap_joinClasses hcs) ?_ hself
    rw [hjoin]
    refine List.mem_cons_of_mem _ (List.mem_filter.2 ⟨hmem, ?_⟩)
    have hlow : l.low ∉ classOf cs m := fun h =>
      hm (SortedSet.mem_union.2 (Or.inl ((mem_classOf_comm hcs).1 h)))
    have hhigh : l.high ∉ classOf cs m := fun h =>
      hm (SortedSet.mem_union.2 (Or.inr ((mem_classOf_comm hcs).1 h)))
    simp [SortedSet.contains, hlow, hhigh]
  · rcases classOf_eq_or (joinClasses cs l) m with ⟨hmem, hself⟩ | ⟨h, _⟩
    · rw [hjoin] at hmem
      rcases List.mem_cons.1 hmem with h | h
      · rw [← hjoin] at h
        exact absurd (h ▸ hself) hm
      · rw [← hjoin] at h
        exact absurd hself (hnone _ (List.mem_filter.1 h).1)
    · rw [h, hsingle]

/-- One more link joins the classes of its ends and leaves all others alone. -/
theorem mem_classOf_joinClasses (hcs : NoOverlap cs) :
    n ∈ classOf (joinClasses cs l) m ↔
      n ∈ classOf cs m ∨ (m ∈ classOf cs l.low ∧ n ∈ classOf cs l.high) ∨
        (m ∈ classOf cs l.high ∧ n ∈ classOf cs l.low) := by
  by_cases hsame : l.high ∈ classOf cs l.low
  · have hclass : classOf cs l.high = classOf cs l.low := classOf_congr hcs hsame
    rw [joinClasses_of_joined hsame, hclass, or_self]
    constructor
    · exact Or.inl
    · rintro (h | ⟨hm, hn⟩)
      · exact h
      · rwa [classOf_congr hcs hm]
  by_cases hm : m ∈ classOf cs l.low ∪ classOf cs l.high
  · rw [classOf_joinClasses_of_mem hcs hsame hm, SortedSet.mem_union]
    rcases SortedSet.mem_union.1 hm with hlow | hhigh
    · rw [classOf_congr hcs hlow]
      constructor
      · rintro (h | h)
        · exact Or.inl h
        · exact Or.inr (Or.inl ⟨hlow, h⟩)
      · rintro (h | ⟨_, h⟩ | ⟨_, h⟩)
        · exact Or.inl h
        · exact Or.inr h
        · exact Or.inl h
    · rw [classOf_congr hcs hhigh]
      constructor
      · rintro (h | h)
        · exact Or.inr (Or.inr ⟨hhigh, h⟩)
        · exact Or.inl h
      · rintro (h | ⟨_, h⟩ | ⟨_, h⟩)
        · exact Or.inr h
        · exact Or.inr h
        · exact Or.inl h
  · rw [classOf_joinClasses_of_not_mem hcs hsame hm]
    simp only [SortedSet.mem_union, not_or] at hm
    simp [hm.1, hm.2]

end

/-! ### All links -/

theorem classes_concat (links : List (Link kind)) (l : Link kind) :
    classes (links ++ [l]) = joinClasses (classes links) l := by
  simp [classes]

theorem noOverlap_classes (links : List (Link kind)) : NoOverlap (classes links) := by
  induction links using List.reverseRecOn with
  | nil =>
    intro c hc
    simp [classes] at hc
  | append_singleton links l ih =>
    rw [classes_concat]
    exact noOverlap_joinClasses ih

theorem linked_concat {links : List (Link kind)} {l : Link kind} {m n : Handle kind} :
    Linked (links ++ [l]) m n ↔ Linked links m n ∨ Link.of m n = l := by
  simp [Linked]

/-- The class of a node holds the nodes that a chain of links joins to it. -/
theorem mem_joinedTo {links : List (Link kind)} {m n : Handle kind} :
    n ∈ joinedTo links m ↔ ReflTransGen (Linked links) m n := by
  unfold joinedTo
  -- links are merged in their order, so the last one is the one that was merged last
  induction links using List.reverseRecOn generalizing m n with
  | nil =>
    have hsingle : classOf (classes []) m = SortedSet.singleton m := rfl
    rw [hsingle, SortedSet.mem_singleton]
    constructor
    · rintro rfl
      exact ReflTransGen.refl
    · intro h
      induction h with
      | refl => rfl
      | tail _ h _ => simp [Linked] at h
  | append_singleton links l ih =>
    have hno := noOverlap_classes links
    have hno' := noOverlap_classes (links ++ [l])
    have hmono : ∀ {x y}, ReflTransGen (Linked links) x y →
        ReflTransGen (Linked (links ++ [l])) x y :=
      ReflTransGen.mono (fun _ _ h => linked_concat.2 (Or.inl h)) _ _
    have hlow : Linked (links ++ [l]) l.low l.high :=
      linked_concat.2 (Or.inr l.of_low_high)
    constructor
    · intro h
      rw [classes_concat, mem_classOf_joinClasses hno] at h
      rcases h with h | ⟨hm, hn⟩ | ⟨hm, hn⟩
      · exact hmono (ih.1 h)
      · exact (hmono (ih.1 ((mem_classOf_comm hno).1 hm))).trans
          (ReflTransGen.head hlow (hmono (ih.1 hn)))
      · exact (hmono (ih.1 ((mem_classOf_comm hno).1 hm))).trans
          (ReflTransGen.head hlow.symm (hmono (ih.1 hn)))
    · intro h
      induction h with
      | refl => exact self_mem_classOf
      | tail _ hstep hm =>
        rw [← classOf_congr hno' hm, classes_concat, mem_classOf_joinClasses hno]
        rcases linked_concat.1 hstep with h | h
        · exact Or.inl (ih.2 (ReflTransGen.single h))
        · rcases Link.of_eq_iff.1 h with ⟨hl, hh⟩ | ⟨hl, hh⟩
          · exact Or.inr (Or.inl ⟨hl ▸ self_mem_classOf, hh ▸ self_mem_classOf⟩)
          · exact Or.inr (Or.inr ⟨hh ▸ self_mem_classOf, hl ▸ self_mem_classOf⟩)

/-! ### What an agent cannot tell apart -/

/-- Links from a node to itself add nothing to chains. -/
theorem reflTransGen_ne_iff {α : Type} {r : α → α → Prop} {x y : α} :
    ReflTransGen (fun a b => a ≠ b ∧ r a b) x y ↔ ReflTransGen r x y := by
  constructor
  · exact ReflTransGen.mono (fun _ _ h => h.2) _ _
  · intro h
    induction h with
    | refl => exact ReflTransGen.refl
    | @tail b c _ hbc ih =>
      by_cases hne : b = c
      · exact hne ▸ ih
      · exact ih.tail ⟨hne, hbc⟩

namespace Accessibility

variable {r : Accessibility kind} {a : Agent} {m n : Handle kind}

/-- The relation stores a link of an agent between two nodes. -/
def Adjacent (r : Accessibility kind) (a : Agent) (m n : Handle kind) : Prop :=
  ∃ ls, r.links.find? a = some ls ∧ Link.of m n ∈ ls

/-- The relation stores a link of an agent between two nodes, and it is not cut. -/
def UncutAdjacent (r : Accessibility kind) (a : Agent) (m n : Handle kind) : Prop :=
  r.Adjacent a m n ∧ Link.of m n ∉ r.cutsOf a

theorem Adjacent.symm (h : r.Adjacent a m n) : r.Adjacent a n m := by
  obtain ⟨ls, hls, hmem⟩ := h
  exact ⟨ls, hls, Link.of_comm m n ▸ hmem⟩

instance : Std.Symm (r.Adjacent a) := ⟨fun _ _ => Adjacent.symm⟩

theorem joined_symm (h : ReflTransGen (r.Adjacent a) m n) : ReflTransGen (r.Adjacent a) n m :=
  symm_of (ReflTransGen (r.Adjacent a)) h

theorem isLoop_of : (Link.of m n).isLoop = decide (m = n) := by
  unfold Link.of Link.isLoop
  split
  · rfl
  · simp [eq_comm]

theorem linked_walked_full {ls : SortedSet (Link kind)} :
    Linked (r.walked a .full ls) m n ↔ m ≠ n ∧ Link.of m n ∈ ls := by
  simp [Linked, walked, isLoop_of, SortedSet.mem_def, and_comm]

theorem linked_walked_respectCuts {ls : SortedSet (Link kind)} :
    Linked (r.walked a .respectCuts ls) m n ↔
      m ≠ n ∧ Link.of m n ∈ ls ∧ Link.of m n ∉ r.cutsOf a := by
  simp only [Linked, walked, List.mem_filter, isLoop_of, SortedSet.mem_def, SortedSet.contains]
  constructor
  · rintro ⟨hls, h⟩
    simp only [Bool.and_eq_true, Bool.not_eq_true', decide_eq_false_iff_not] at h
    exact ⟨h.1, hls, h.2⟩
  · rintro ⟨hne, hls, hcut⟩
    exact ⟨hls, by simp only [hne, decide_false, Bool.not_false, Bool.true_and]; simpa using hcut⟩

theorem mem_links_iff_adjacent :
    Link.of m n ∈ (r.links.find? a).getD ∅ ↔ r.Adjacent a m n := by
  unfold Adjacent
  cases r.links.find? a with
  | none => simp
  | some ls => simp

theorem noOverlap_classesOf (r : Accessibility kind) (a : Agent) (t : Traversal) :
    NoOverlap (r.classesOf a t) := noOverlap_classes _

/-- The class of a node holds what chains of stored links of the agent join to it. -/
theorem mem_class_full :
    n ∈ classOf (r.classesOf a .full) m ↔ ReflTransGen (r.Adjacent a) m n := by
  have hlink : Linked (r.walked a .full ((r.links.find? a).getD ∅)) =
      fun x y => x ≠ y ∧ r.Adjacent a x y := by
    funext x y
    rw [linked_walked_full, mem_links_iff_adjacent]
  calc n ∈ classOf (r.classesOf a .full) m
      ↔ ReflTransGen (fun x y => x ≠ y ∧ r.Adjacent a x y) m n := hlink ▸ mem_joinedTo
    _ ↔ ReflTransGen (r.Adjacent a) m n := reflTransGen_ne_iff

/-- Once cut links are left out, a class holds what chains of uncut links join. -/
theorem mem_class_respectCuts :
    n ∈ classOf (r.classesOf a .respectCuts) m ↔ ReflTransGen (r.UncutAdjacent a) m n := by
  have hlink : Linked (r.walked a .respectCuts ((r.links.find? a).getD ∅)) =
      fun x y => x ≠ y ∧ r.UncutAdjacent a x y := by
    funext x y
    rw [linked_walked_respectCuts, mem_links_iff_adjacent]
    rfl
  calc n ∈ classOf (r.classesOf a .respectCuts) m
      ↔ ReflTransGen (fun x y => x ≠ y ∧ r.UncutAdjacent a x y) m n := hlink ▸ mem_joinedTo
    _ ↔ ReflTransGen (r.UncutAdjacent a) m n := reflTransGen_ne_iff

theorem hasAgent_iff : r.hasAgent a = true ↔ ∃ ls, r.links.find? a = some ls :=
  Option.isSome_iff_exists

theorem find?_eq_none_iff : r.links.find? a = none ↔ r.hasAgent a = false := by
  unfold hasAgent SortedMap.contains
  cases r.links.find? a <;> simp

theorem mem_agents : a ∈ r.agents.toList ↔ r.hasAgent a = true := by
  rw [hasAgent_iff]
  simp only [SortedMap.find?_eq_some_iff, agents, SortedMap.keys, List.mem_map, Prod.exists]
  constructor
  · rintro ⟨_, ls, hmem, rfl⟩
    exact ⟨ls, hmem⟩
  · rintro ⟨ls, hmem⟩
    exact ⟨a, ls, hmem, rfl⟩

theorem linksOf_eq_ok (h : r.hasAgent a = true) :
    r.linksOf a = .ok ((r.links.find? a).getD ∅) := by
  obtain ⟨ls, hls⟩ := hasAgent_iff.1 h
  simp [linksOf, hls]

theorem reach_eq_ok (h : r.hasAgent a = true) (t : Traversal) :
    r.reach a n t = .ok (classOf (r.classesOf a t) n) := by
  rw [reach, linksOf_eq_ok h]
  rfl

theorem linksOf_eq_error (h : r.hasAgent a = false) :
    r.linksOf a = .error (.agentNotFound a) := by
  simp [linksOf, find?_eq_none_iff.2 h]

theorem reach_eq_error (h : r.hasAgent a = false) (t : Traversal) :
    r.reach a n t = .error (.agentNotFound a) := by
  rw [reach, linksOf_eq_error h]
  rfl

theorem mem_of_accessible {ns : SortedSet (Handle kind)} (h : r.accessible a n = .ok ns) :
    m ∈ ns ↔ ReflTransGen (r.Adjacent a) n m := by
  have hagent : r.hasAgent a = true := by
    by_contra hno
    rw [accessible, reach_eq_error (Bool.eq_false_iff.2 hno)] at h
    cases h
  rw [accessible, reach_eq_ok hagent] at h
  cases h
  exact mem_class_full

theorem isRelated_eq_ok (h : r.hasAgent a = true) :
    r.isRelated a m n = .ok ((classOf (r.classesOf a .full) m).contains n) := by
  rw [isRelated, accessible, reach_eq_ok h]
  rfl

/-- Two nodes are related when a chain of stored links joins them. -/
theorem isRelated_iff (h : r.hasAgent a = true) :
    r.isRelated a m n = .ok true ↔ ReflTransGen (r.Adjacent a) m n := by
  rw [isRelated_eq_ok h, Except.ok.injEq, SortedSet.contains_iff, mem_class_full]

end Accessibility

end EpistemicPlanning
