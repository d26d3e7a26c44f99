import EpistemicPlanning.Cost

/-!
# The order of costs and their aggregates

The rank of a cost determines it, so costs are linearly ordered. Among some costs, `best` is the
least settled one, else the least provisional one; `worst` is the greatest provisional one, else the
greatest settled one. Counting steps stops at the largest number that a cost can hold
(`saturated`).
-/
namespace EpistemicPlanning.Cost

variable {a b c : Cost} {cs : List Cost} {i j k : UInt32} {m n : Nat}

/-! ### The order -/

theorem le_iff : a ≤ b ↔ a.rank ≤ b.rank := Iff.rfl

theorem rank_injective (h : a.rank = b.rank) : a = b := by
  have hlt := fun v : UInt32 => v.toNat_lt_size
  have hsize : UInt32.size = 4294967296 := rfl
  cases a with
  | undefined =>
    cases b with
    | undefined => rfl
    | finite v p => cases p <;> simp [rank] at h
    | infinity => simp [rank] at h
  | finite u p =>
    have hu := hlt u
    cases b with
    | undefined => cases p <;> simp [rank] at h
    | finite v q =>
      have hv := hlt v
      simp only [rank] at h
      have huv : u.toNat = v.toNat ∧ p = q := by
        cases p <;> cases q <;> simp at h ⊢ <;> omega
      rw [UInt32.toNat_inj.1 huv.1, huv.2]
    | infinity => cases p <;> simp [rank] at h <;> omega
  | infinity =>
    cases b with
    | undefined => simp [rank] at h
    | finite v q =>
      have hv := hlt v
      cases q <;> simp [rank] at h <;> omega
    | infinity => rfl

instance : Std.IsLinearOrder Cost where
  le_refl a := Nat.le_refl a.rank
  le_trans _ _ _ := Nat.le_trans
  le_antisymm _ _ h h' := rank_injective (Nat.le_antisymm h h')
  le_total a b := Nat.le_total a.rank b.rank

instance : Std.LawfulOrderMin Cost where
  min_eq_or a b := by
    change (if a ≤ b then a else b) = a ∨ (if a ≤ b then a else b) = b
    split
    · exact Or.inl rfl
    · exact Or.inr rfl
  le_min_iff a b c := by
    change a ≤ (if b ≤ c then b else c) ↔ a ≤ b ∧ a ≤ c
    split
    · next h => exact ⟨fun hab => ⟨hab, Nat.le_trans hab h⟩, And.left⟩
    · next h =>
      have hcb : c ≤ b := Nat.le_of_not_le h
      exact ⟨fun hac => ⟨Nat.le_trans hac hcb, hac⟩, And.right⟩

instance : Std.LawfulOrderMax Cost where
  max_eq_or a b := by
    change (if a ≤ b then b else a) = a ∨ (if a ≤ b then b else a) = b
    split
    · exact Or.inr rfl
    · exact Or.inl rfl
  max_le_iff a b c := by
    change (if a ≤ b then b else a) ≤ c ↔ a ≤ c ∧ b ≤ c
    split
    · next h => exact ⟨fun hbc => ⟨Nat.le_trans h hbc, hbc⟩, And.right⟩
    · next h =>
      have hba : b ≤ a := Nat.le_of_not_le h
      exact ⟨fun hac => ⟨hac, Nat.le_trans hba hac⟩, And.left⟩

theorem settled_le_settled : settled i ≤ settled j ↔ i ≤ j := by
  simp only [le_iff, settled, rank, UInt32.le_iff_toNat_le]
  omega

theorem provisional_le_provisional : provisional i ≤ provisional j ↔ i ≤ j := by
  simp only [le_iff, provisional, rank, UInt32.le_iff_toNat_le]
  omega

/-! ### The best of several costs -/

theorem isSettledFinite_iff : c.isSettledFinite = true ↔ ∃ k, c = settled k := by
  cases c with
  | undefined => simp [isSettledFinite, settled]
  | finite v p => cases p <;> simp [isSettledFinite, settled]
  | infinity => simp [isSettledFinite, settled]

theorem isProvisional_iff : c.isProvisional = true ↔ ∃ k, c = provisional k := by
  cases c with
  | undefined => simp [isProvisional, provisional]
  | finite v p => cases p <;> simp [isProvisional, provisional]
  | infinity => simp [isProvisional, provisional]

theorem isSettled_iff : c.isSettled = true ↔ c = infinity ∨ ∃ k, c = settled k := by
  cases c with
  | undefined => simp [isSettled, settled]
  | finite v p => cases p <;> simp [isSettled, settled]
  | infinity => simp [isSettled]

/-- The best cost is the least settled one, if there is one. -/
theorem best_eq_settled (hk : settled k ∈ cs) (hmin : ∀ j, settled j ∈ cs → k ≤ j) :
    best cs = settled k := by
  have hleast : (cs.filter isSettledFinite).min? = some (settled k) := by
    refine List.min?_eq_some_iff.2 ⟨List.mem_filter.2 ⟨hk, rfl⟩, fun b hb => ?_⟩
    obtain ⟨hmem, hsettled⟩ := List.mem_filter.1 hb
    obtain ⟨j, rfl⟩ := isSettledFinite_iff.1 hsettled
    exact settled_le_settled.2 (hmin j hmem)
  simp [best, hleast]

theorem best_eq_provisional (hnone : ∀ j, settled j ∉ cs) (hk : provisional k ∈ cs)
    (hmin : ∀ j, provisional j ∈ cs → k ≤ j) : best cs = provisional k := by
  have hempty : cs.filter isSettledFinite = [] := by
    refine List.filter_eq_nil_iff.2 fun b hb hsettled => ?_
    obtain ⟨j, rfl⟩ := isSettledFinite_iff.1 hsettled
    exact hnone j hb
  have hleast : (cs.filter isProvisional).min? = some (provisional k) := by
    refine List.min?_eq_some_iff.2 ⟨List.mem_filter.2 ⟨hk, rfl⟩, fun b hb => ?_⟩
    obtain ⟨hmem, hprov⟩ := List.mem_filter.1 hb
    obtain ⟨j, rfl⟩ := isProvisional_iff.1 hprov
    exact provisional_le_provisional.2 (hmin j hmem)
  simp [best, hempty, hleast]

theorem best_eq_infinity (hsettled : ∀ j, settled j ∉ cs) (hprov : ∀ j, provisional j ∉ cs) :
    best cs = infinity := by
  have hempty : cs.filter isSettledFinite = [] := by
    refine List.filter_eq_nil_iff.2 fun b hb h => ?_
    obtain ⟨j, rfl⟩ := isSettledFinite_iff.1 h
    exact hsettled j hb
  have hempty' : cs.filter isProvisional = [] := by
    refine List.filter_eq_nil_iff.2 fun b hb h => ?_
    obtain ⟨j, rfl⟩ := isProvisional_iff.1 h
    exact hprov j hb
  simp [best, hempty, hempty']

theorem best_mem_or_eq_infinity (cs : List Cost) :
    best cs = infinity ∨ best cs ∈ cs ∧ (best cs).isFinite = true := by
  unfold best
  split
  · next b hb =>
    obtain ⟨hmem, hsettled⟩ := List.mem_filter.1 (List.min?_eq_some_iff.1 hb).1
    obtain ⟨j, rfl⟩ := isSettledFinite_iff.1 hsettled
    exact Or.inr ⟨hmem, rfl⟩
  · cases hb : (cs.filter isProvisional).min? with
    | none => exact Or.inl rfl
    | some b =>
      obtain ⟨hmem, hprov⟩ := List.mem_filter.1 (List.min?_eq_some_iff.1 hb).1
      obtain ⟨j, rfl⟩ := isProvisional_iff.1 hprov
      exact Or.inr ⟨hmem, rfl⟩

theorem best_ne_undefined (cs : List Cost) : best cs ≠ undefined := by
  rcases best_mem_or_eq_infinity cs with hinf | ⟨_, hfinite⟩
  · rw [hinf]
    exact Cost.noConfusion
  · intro hundefined
    rw [hundefined] at hfinite
    cases hfinite

/-- Only a provisional alternative makes the best cost provisional. -/
theorem isProvisional_best (h : ∀ c ∈ cs, c.isProvisional = false) :
    (best cs).isProvisional = false := by
  rcases best_mem_or_eq_infinity cs with hinf | ⟨hmem, _⟩
  · rw [hinf]
    rfl
  · exact h _ hmem

theorem isProvisional_successor (c : Cost) : c.successor.isProvisional = c.isProvisional := by
  cases c with
  | undefined => rfl
  | finite v p => rfl
  | infinity => rfl

/-! ### The worst of several costs -/

/-- The worst cost is the greatest provisional one, if there is one. -/
theorem worst_of_provisional (hk : provisional k ∈ cs) :
    ∃ m, worst cs = provisional m ∧ k ≤ m := by
  cases hmax : (cs.filter isProvisional).max? with
  | none =>
    rw [List.max?_eq_none_iff, List.filter_eq_nil_iff] at hmax
    exact absurd rfl (hmax _ hk)
  | some d =>
    obtain ⟨hmem, hle⟩ := List.max?_eq_some_iff.1 hmax
    obtain ⟨m, rfl⟩ := isProvisional_iff.1 (List.mem_filter.1 hmem).2
    refine ⟨m, by simp [worst, hmax], provisional_le_provisional.1 ?_⟩
    exact hle _ (List.mem_filter.2 ⟨hk, rfl⟩)

theorem worst_of_settled (hnone : ∀ j, provisional j ∉ cs) (hc : c ∈ cs) (hs : c.isSettled = true) :
    (worst cs).isSettled = true ∧ c ≤ worst cs := by
  have hempty : cs.filter isProvisional = [] := by
    refine List.filter_eq_nil_iff.2 fun b hb h => ?_
    obtain ⟨j, rfl⟩ := isProvisional_iff.1 h
    exact hnone j hb
  cases hmax : (cs.filter isSettled).max? with
  | none =>
    rw [List.max?_eq_none_iff, List.filter_eq_nil_iff] at hmax
    exact absurd hs (hmax _ hc)
  | some d =>
    obtain ⟨hmem, hle⟩ := List.max?_eq_some_iff.1 hmax
    have hworst : worst cs = d := by simp [worst, hempty, hmax]
    rw [hworst]
    exact ⟨(List.mem_filter.1 hmem).2, hle _ (List.mem_filter.2 ⟨hc, hs⟩)⟩

/-! ### Counting steps -/

/-- A number of steps, or the largest that a cost can hold. -/
def saturated (n : Nat) : UInt32 := UInt32.ofNat (min n 0xFFFFFFFF)

theorem toNat_saturated : (saturated n).toNat = min n 0xFFFFFFFF := by
  have hlt : min n 0xFFFFFFFF < UInt32.size := Nat.lt_succ_of_le (Nat.min_le_right _ _)
  exact UInt32.toNat_ofNat_of_lt' hlt

theorem toNat_saturated_of_lt (h : n < UInt32.size) : (saturated n).toNat = n := by
  rw [toNat_saturated]
  exact Nat.min_eq_left (Nat.le_of_lt_succ h)

theorem saturated_mono (h : m ≤ n) : saturated m ≤ saturated n := by
  rw [UInt32.le_iff_toNat_le, toNat_saturated, toNat_saturated]
  omega

theorem successor_saturated (p : Bool) :
    (finite (saturated n) p).successor = finite (saturated (n + 1)) p := by
  have hn := toNat_saturated (n := n)
  have hn' := toNat_saturated (n := n + 1)
  suffices hnext : (if saturated n = 0xFFFFFFFF then saturated n else saturated n + 1) =
      saturated (n + 1) from congrArg (finite · p) hnext
  apply UInt32.toNat_inj.1
  rw [hn']
  split
  · next h =>
    have hmax : (saturated n).toNat = 4294967295 := congrArg UInt32.toNat h
    omega
  · next h =>
    have hne : (saturated n).toNat ≠ 4294967295 := fun heq => h (UInt32.toNat_inj.1 heq)
    rw [UInt32.toNat_add, UInt32.toNat_one]
    omega

/-! ### Comparing numbers of steps -/

theorem isStrictlyBelow_finite {p q : Bool} :
    (finite i p).isStrictlyBelow (finite j q) = true ↔ i < j := by
  change (some (compare i j) == some Ordering.lt) = true ↔ _
  rw [beq_iff_eq, Option.some.injEq, Std.compare_eq_lt]

theorem not_isStrictlyBelow_finite {p q : Bool} (h : j ≤ i) :
    (finite i p).isStrictlyBelow (finite j q) = false := by
  rw [Bool.eq_false_iff]
  intro hlt
  exact absurd (isStrictlyBelow_finite.1 hlt) (UInt32.not_lt.2 h)

/-- The worst of several costs is not below a finite one among them that no provisional one
undercuts. -/
theorem not_worst_isStrictlyBelow {p : Bool} (hk : finite k p ∈ cs)
    (hprov : ∀ j, provisional j ∈ cs → k ≤ j) :
    (worst cs).isStrictlyBelow (finite k p) = false := by
  by_cases hnone : ∀ j, provisional j ∉ cs
  · cases p with
    | true => exact absurd hk (hnone k)
    | false =>
      obtain ⟨hsettled, hle⟩ := worst_of_settled hnone hk rfl
      rcases isSettled_iff.1 hsettled with hinf | ⟨m, hm⟩
      · rw [hinf]
        rfl
      · rw [hm] at hle ⊢
        exact not_isStrictlyBelow_finite (settled_le_settled.1 hle)
  · obtain ⟨j, hj⟩ := Classical.not_forall.1 hnone
    have hj := Classical.not_not.1 hj
    obtain ⟨m, hm, hle⟩ := worst_of_provisional hj
    rw [hm]
    exact not_isStrictlyBelow_finite (UInt32.le_trans (hprov j hj) hle)

end EpistemicPlanning.Cost
