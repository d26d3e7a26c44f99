import Mathlib.Order.Lattice.Nat
import EpistemicPlanning.Proofs.Cost

/-!
# Costs that sum up distances

A cost sums up a set of distances to the goal: it is the least of them; if there is none, it is the
bound of the search, as long as the search is open, and else infinite (`Summary`). One more step and
the best of several steps keep this meaning.
-/
namespace EpistemicPlanning.Cost

variable {S : Set Nat} {o : Prop} {r k : Nat} {c c' : Cost} {i : UInt32}

/-- The least distance, the bound of an open search without any, or infinity. -/
inductive Summary (S : Set Nat) (o : Prop) (r : Nat) : Cost → Prop
  | reached {m : Nat} (hleast : IsLeast S m) : Summary S o r (settled (saturated m))
  | cut (hnone : S = ∅) (hopen : o) : Summary S o r (provisional (saturated r))
  | hopeless (hnone : S = ∅) (hclosed : ¬o) : Summary S o r infinity

namespace Summary

theorem not_isLeast (hnone : S = ∅) (hleast : IsLeast S k) : False := by
  rw [hnone] at hleast
  exact hleast.1

/-- A cost is determined by what it sums up. -/
theorem unique (h : Summary S o r c) (h' : Summary S o r c') : c = c' := by
  cases h with
  | reached hleast =>
    cases h' with
    | reached hleast' => rw [hleast.unique hleast']
    | cut hnone _ => exact (not_isLeast hnone hleast).elim
    | hopeless hnone _ => exact (not_isLeast hnone hleast).elim
  | cut hnone hopen =>
    cases h' with
    | reached hleast => exact (not_isLeast hnone hleast).elim
    | cut _ _ => rfl
    | hopeless _ hclosed => exact absurd hopen hclosed
  | hopeless hnone hclosed =>
    cases h' with
    | reached hleast => exact (not_isLeast hnone hleast).elim
    | cut _ hopen => exact absurd hopen hclosed
    | hopeless _ _ => rfl

theorem eq_settled_iff (h : Summary S o r c) :
    c = settled i ↔ ∃ m, IsLeast S m ∧ i = saturated m := by
  constructor
  · rintro rfl
    cases h with
    | @reached m hleast => exact ⟨m, hleast, rfl⟩
  · rintro ⟨m, hleast, rfl⟩
    exact h.unique (.reached hleast)

theorem eq_provisional_iff (h : Summary S o r c) :
    c = provisional i ↔ S = ∅ ∧ o ∧ i = saturated r := by
  constructor
  · rintro rfl
    cases h with
    | cut hnone hopen => exact ⟨hnone, hopen, rfl⟩
  · rintro ⟨hnone, hopen, rfl⟩
    exact h.unique (.cut hnone hopen)

theorem eq_infinity_iff (h : Summary S o r c) : c = infinity ↔ S = ∅ ∧ ¬o := by
  constructor
  · rintro rfl
    cases h with
    | hopeless hnone hclosed => exact ⟨hnone, hclosed⟩
  · rintro ⟨hnone, hclosed⟩
    exact h.unique (.hopeless hnone hclosed)

theorem congr {S' : Set Nat} {o' : Prop} (h : Summary S o r c) (hS : S = S') (ho : o ↔ o') :
    Summary S' o' r c := by
  rw [← hS, ← propext ho]
  exact h

/-- A goal costs nothing. -/
theorem zero (h : 0 ∈ S) : Summary S o r (settled 0) :=
  .reached ⟨h, fun _ _ => Nat.zero_le _⟩

theorem exists_isLeast (h : k ∈ S) : ∃ m, IsLeast S m :=
  ⟨sInf S, Nat.sInf_mem ⟨k, h⟩, fun _ hj => Nat.sInf_le hj⟩

/-- With one more step in front, each distance and the bound grow by one. -/
theorem successor (h : Summary S o r c) :
    Summary {k | ∃ j ∈ S, k = j + 1} o (r + 1) c.successor := by
  have hempty : S = ∅ → {k | ∃ j ∈ S, k = j + 1} = ∅ := by
    rintro rfl
    exact Set.eq_empty_iff_forall_notMem.2 fun _ ⟨_, hj, _⟩ => hj
  cases h with
  | @reached m hleast =>
    have hcost : (settled (saturated m)).successor = settled (saturated (m + 1)) :=
      successor_saturated false
    rw [hcost]
    refine .reached ⟨⟨m, hleast.1, rfl⟩, ?_⟩
    rintro _ ⟨j, hj, rfl⟩
    exact Nat.succ_le_succ (hleast.2 hj)
  | cut hnone hopen =>
    have hcost : (provisional (saturated r)).successor = provisional (saturated (r + 1)) :=
      successor_saturated true
    rw [hcost]
    exact .cut (hempty hnone) hopen
  | hopeless hnone hclosed => exact .hopeless (hempty hnone) hclosed

section

variable {α : Type} {l : List α} {T : α → Set Nat} {p : α → Prop} {f : α → Cost}

/-- The best of the costs of several steps sums up all their distances. -/
theorem best (h : ∀ a ∈ l, Summary (T a) (p a) r (f a)) :
    Summary {k | ∃ a ∈ l, k ∈ T a} (∃ a ∈ l, p a) r (Cost.best (l.map f)) := by
  by_cases hsome : ∃ k, ∃ a ∈ l, k ∈ T a
  · -- a step at the least distance has the least of the settled costs
    obtain ⟨k, hk⟩ := hsome
    obtain ⟨m, hleast⟩ := exists_isLeast (S := {k | ∃ a ∈ l, k ∈ T a}) hk
    obtain ⟨a, ha, hm⟩ := hleast.1
    have hcost : f a = settled (saturated m) :=
      (h a ha).eq_settled_iff.2 ⟨m, ⟨hm, fun _ hj => hleast.2 ⟨a, ha, hj⟩⟩, rfl⟩
    rw [best_eq_settled (List.mem_map.2 ⟨a, ha, hcost⟩)]
    · exact .reached hleast
    · intro j hj
      obtain ⟨b, hb, hbj⟩ := List.mem_map.1 hj
      obtain ⟨m', hleast', rfl⟩ := (h b hb).eq_settled_iff.1 hbj
      exact saturated_mono (hleast.2 ⟨b, hb, hleast'.1⟩)
  · have hnone : {k | ∃ a ∈ l, k ∈ T a} = ∅ :=
      Set.eq_empty_iff_forall_notMem.2 fun k hk => hsome ⟨k, hk⟩
    have hempty : ∀ a ∈ l, T a = ∅ := fun a ha =>
      Set.eq_empty_iff_forall_notMem.2 fun k hk => hsome ⟨k, a, ha, hk⟩
    have hnosettled : ∀ j, settled j ∉ l.map f := by
      intro j hj
      obtain ⟨b, hb, hbj⟩ := List.mem_map.1 hj
      obtain ⟨m, hleast, _⟩ := (h b hb).eq_settled_iff.1 hbj
      exact hsome ⟨m, b, hb, hleast.1⟩
    by_cases hopen : ∃ a ∈ l, p a
    · obtain ⟨a, ha, hp⟩ := hopen
      have hcost : f a = provisional (saturated r) :=
        (h a ha).eq_provisional_iff.2 ⟨hempty a ha, hp, rfl⟩
      rw [best_eq_provisional hnosettled (List.mem_map.2 ⟨a, ha, hcost⟩)]
      · exact .cut hnone ⟨a, ha, hp⟩
      · intro j hj
        obtain ⟨b, hb, hbj⟩ := List.mem_map.1 hj
        rw [((h b hb).eq_provisional_iff.1 hbj).2.2]
        exact UInt32.le_refl _
    · rw [best_eq_infinity hnosettled]
      · exact .hopeless hnone hopen
      · intro j hj
        obtain ⟨b, hb, hbj⟩ := List.mem_map.1 hj
        exact hopen ⟨b, hb, ((h b hb).eq_provisional_iff.1 hbj).2.1⟩

end

end Summary

end EpistemicPlanning.Cost
