import EpistemicPlanning.Proofs.Cost

/-!
# Aggregated costs

The best of some costs is the first of them in an order of its own (`preference`), and so is the
worst (`urgency`); the two orders differ from that of the costs, and where nothing can be chosen
infinity or the undefined cost stands in. What comes first depends neither on the order of the costs
nor on how they are grouped, and one more step in front keeps it first
(`best_and_worst_aggregate`).
-/
namespace EpistemicPlanning.Cost

variable {a b c d e : Cost} {xs ys : List Cost} {r : Cost → Nat} {f : Cost → Cost}
variable {k : UInt32}

/-! ### What comes first -/

/-- The cost comes first in a list by the rank `r`. -/
def First (r : Cost → Nat) (xs : List Cost) (c : Cost) : Prop := c ∈ xs ∧ ∀ d ∈ xs, r c ≤ r d

theorem First.unique (hr : ∀ a b, r a = r b → a = b) (hc : First r xs c) (hd : First r xs d) :
    c = d :=
  hr c d (Nat.le_antisymm (hc.2 d hd.1) (hd.2 c hc.1))

theorem First.perm (h : xs.Perm ys) (hc : First r xs c) : First r ys c := by
  simpa [First, h.mem_iff] using hc

/-- What comes first among the first of two groups comes first among all. -/
theorem First.append (ha : First r (e :: xs) a) (hb : First r (e :: ys) b)
    (hc : First r (e :: [a, b]) c) : First r (e :: (xs ++ ys)) c := by
  simp only [First, List.mem_cons, List.mem_append, List.not_mem_nil, or_false] at *
  constructor
  · rcases hc.1 with h | h | h <;> grind
  · have hca := hc.2 a (by simp)
    have hcb := hc.2 b (by simp)
    rintro d (h | h | h)
    · exact hc.2 d (by simp [h])
    · exact Nat.le_trans hca (ha.2 d (by simp [h]))
    · exact Nat.le_trans hcb (hb.2 d (by simp [h]))

theorem First.map (hf : ∀ a b, r a ≤ r b → r (f a) ≤ r (f b)) (he : f e = e)
    (hc : First r (e :: xs) c) : First r (e :: xs.map f) (f c) := by
  have hmap : e :: xs.map f = (e :: xs).map f := by simp [he]
  rw [hmap]
  constructor
  · exact List.mem_map_of_mem hc.1
  · intro d hd
    obtain ⟨c', hc', rfl⟩ := List.mem_map.1 hd
    exact hf c c' (hc.2 c' hc')

/-! ### The two orders -/

/-- Among alternatives settled numbers of steps come before provisional ones and these before
infinity, and few steps before many. -/
def preference : Cost → Nat
  | finite value false => value.toNat
  | finite value true => UInt32.size + value.toNat
  | infinity => 2 * UInt32.size
  | undefined => 2 * UInt32.size + 1

/-- Among possibilities provisional numbers of steps come before infinity and this before settled
numbers, and many steps before few. -/
def urgency : Cost → Nat
  | finite value true => UInt32.size - value.toNat
  | infinity => UInt32.size + 1
  | finite value false => 2 * UInt32.size + 1 - value.toNat
  | undefined => 2 * UInt32.size + 2

theorem preference_injective (a b : Cost) (h : a.preference = b.preference) : a = b := by
  have hlt := fun v : UInt32 => v.toNat_lt_size
  have hinj := fun u v : UInt32 => UInt32.toNat_inj (a := u) (b := v)
  rcases a with _ | ⟨u, _ | _⟩ | _ <;> rcases b with _ | ⟨v, _ | _⟩ | _ <;>
    simp only [preference] at h <;> grind

theorem urgency_injective (a b : Cost) (h : a.urgency = b.urgency) : a = b := by
  have hlt := fun v : UInt32 => v.toNat_lt_size
  have hinj := fun u v : UInt32 => UInt32.toNat_inj (a := u) (b := v)
  rcases a with _ | ⟨u, _ | _⟩ | _ <;> rcases b with _ | ⟨v, _ | _⟩ | _ <;>
    simp only [urgency] at h <;> grind

theorem toNat_successor_value (v : UInt32) :
    (if v = 0xFFFFFFFF then v else v + 1).toNat = min (v.toNat + 1) 0xFFFFFFFF := by
  have hv : v = saturated v.toNat := by
    apply UInt32.toNat_inj.1
    rw [toNat_saturated_of_lt v.toNat_lt_size]
  have hnext := successor_saturated (n := v.toNat) false
  rw [← hv] at hnext
  simp only [successor, finite.injEq, and_true] at hnext
  rw [hnext, toNat_saturated]

theorem preference_successor (a b : Cost) (h : a.preference ≤ b.preference) :
    a.successor.preference ≤ b.successor.preference := by
  have hlt := fun v : UInt32 => v.toNat_lt_size
  have hsize : UInt32.size = 4294967296 := rfl
  rcases a with _ | ⟨u, _ | _⟩ | _ <;> rcases b with _ | ⟨v, _ | _⟩ | _ <;>
    simp only [successor, preference, toNat_successor_value] at h ⊢ <;> grind

theorem urgency_successor (a b : Cost) (h : a.urgency ≤ b.urgency) :
    a.successor.urgency ≤ b.successor.urgency := by
  have hlt := fun v : UInt32 => v.toNat_lt_size
  have hsize : UInt32.size = 4294967296 := rfl
  rcases a with _ | ⟨u, _ | _⟩ | _ <;> rcases b with _ | ⟨v, _ | _⟩ | _ <;>
    simp only [successor, urgency, toNat_successor_value] at h ⊢ <;> grind

/-! ### The aggregates -/

theorem best_of_settled (hk : settled k ∈ xs) : ∃ m, best xs = settled m ∧ m ≤ k := by
  cases hmin : (xs.filter isSettledFinite).min? with
  | none =>
    rw [List.min?_eq_none_iff, List.filter_eq_nil_iff] at hmin
    exact absurd rfl (hmin _ hk)
  | some c =>
    obtain ⟨hmem, hle⟩ := List.min?_eq_some_iff.1 hmin
    obtain ⟨m, rfl⟩ := isSettledFinite_iff.1 (List.mem_filter.1 hmem).2
    refine ⟨m, by simp [best, hmin], settled_le_settled.1 ?_⟩
    exact hle _ (List.mem_filter.2 ⟨hk, rfl⟩)

theorem best_of_provisional (hnone : ∀ j, settled j ∉ xs) (hk : provisional k ∈ xs) :
    ∃ m, best xs = provisional m ∧ m ≤ k := by
  have hempty : xs.filter isSettledFinite = [] := by
    refine List.filter_eq_nil_iff.2 fun c hc h => ?_
    obtain ⟨j, rfl⟩ := isSettledFinite_iff.1 h
    exact hnone j hc
  cases hmin : (xs.filter isProvisional).min? with
  | none =>
    rw [List.min?_eq_none_iff, List.filter_eq_nil_iff] at hmin
    exact absurd rfl (hmin _ hk)
  | some c =>
    obtain ⟨hmem, hle⟩ := List.min?_eq_some_iff.1 hmin
    obtain ⟨m, rfl⟩ := isProvisional_iff.1 (List.mem_filter.1 hmem).2
    refine ⟨m, by simp [best, hempty, hmin], provisional_le_provisional.1 ?_⟩
    exact hle _ (List.mem_filter.2 ⟨hk, rfl⟩)

theorem worst_mem_or_eq_undefined (xs : List Cost) : worst xs = undefined ∨ worst xs ∈ xs := by
  unfold worst
  split
  · next c hc => exact Or.inr (List.mem_filter.1 (List.max?_eq_some_iff.1 hc).1).1
  · cases hc : (xs.filter isSettled).max? with
    | none => simp
    | some c => exact Or.inr (List.mem_filter.1 (List.max?_eq_some_iff.1 hc).1).1

theorem preference_best_le (xs : List Cost) : (best xs).preference ≤ infinity.preference := by
  have hlt := fun v : UInt32 => v.toNat_lt_size
  have hdefined := best_ne_undefined xs
  rcases hbest : best xs with _ | ⟨v, _ | _⟩ | _ <;> simp only [preference] <;> grind

theorem first_best (xs : List Cost) : First preference (infinity :: xs) (best xs) := by
  have hlt := fun v : UInt32 => v.toNat_lt_size
  constructor
  · rcases best_mem_or_eq_infinity xs with h | h <;> simp [h]
  intro d hd
  rcases d with _ | ⟨j, _ | _⟩ | _
  case undefined => exact Nat.le_trans (preference_best_le xs) (Nat.le_succ _)
  case infinity => exact preference_best_le xs
  case finite.false =>
    have hj : settled j ∈ xs := by simpa [settled] using hd
    obtain ⟨m, hm, hmj⟩ := best_of_settled hj
    rw [hm]
    exact UInt32.le_iff_toNat_le.1 hmj
  case finite.true =>
    by_cases hsettled : ∃ i, settled i ∈ xs
    · obtain ⟨i, hi⟩ := hsettled
      obtain ⟨m, hm, _⟩ := best_of_settled hi
      have := hlt m
      simp only [hm, settled, preference]
      omega
    · simp only [not_exists] at hsettled
      have hj : provisional j ∈ xs := by simpa [provisional] using hd
      obtain ⟨m, hm, hmj⟩ := best_of_provisional hsettled hj
      have := UInt32.le_iff_toNat_le.1 hmj
      simp only [hm, provisional, preference]
      omega

theorem urgency_le_of_settled (ha : a.isSettled = true) (hb : b.isSettled = true) (h : a ≤ b) :
    b.urgency ≤ a.urgency := by
  have hlt := fun v : UInt32 => v.toNat_lt_size
  rw [le_iff] at h
  rcases a with _ | ⟨u, _ | _⟩ | _ <;> rcases b with _ | ⟨v, _ | _⟩ | _ <;>
    simp only [isSettled, rank, urgency] at ha hb h ⊢ <;> grind

theorem urgency_le_undefined (c : Cost) : c.urgency ≤ undefined.urgency := by
  rcases c with _ | ⟨v, _ | _⟩ | _ <;> simp only [urgency] <;> omega

theorem first_worst (xs : List Cost) : First urgency (undefined :: xs) (worst xs) := by
  have hlt := fun v : UInt32 => v.toNat_lt_size
  constructor
  · rcases worst_mem_or_eq_undefined xs with h | h <;> simp [h]
  intro d hd
  by_cases hprov : ∃ k, provisional k ∈ xs
  · obtain ⟨k, hk⟩ := hprov
    obtain ⟨m, hm, _⟩ := worst_of_provisional hk
    rcases d with _ | ⟨j, _ | _⟩ | _
    case finite.true =>
      have hj : provisional j ∈ xs := by simpa [provisional] using hd
      obtain ⟨m', hm', hjm⟩ := worst_of_provisional hj
      have := UInt32.le_iff_toNat_le.1 hjm
      simp only [hm', provisional, urgency]
      omega
    all_goals simp only [hm, provisional, urgency]; grind
  · simp only [not_exists] at hprov
    rcases d with _ | ⟨j, _ | _⟩ | _
    case undefined => exact urgency_le_undefined _
    case finite.true => exact absurd (by simpa [provisional] using hd) (hprov j)
    all_goals
      obtain ⟨hsettled, hle⟩ := worst_of_settled hprov (by simpa using hd) rfl
      exact urgency_le_of_settled rfl hsettled hle

/-! ### One pass over the costs -/

/-- The costs in the lead when a pass has come so far, a settled one and a provisional one. -/
structure Leaders where
  settled : Option Cost
  provisional : Option Cost

namespace Leaders

/-- What is in the lead after one more cost. -/
def lead (choose : Cost → Cost → Cost) (leader : Option Cost) (c : Cost) : Option Cost :=
  some (leader.elim c fun l => choose l c)

/-- One more cost challenges the leader of its kind; `counts` tells which costs count as settled. -/
def meet (counts : Cost → Bool) (choose : Cost → Cost → Cost) (l : Leaders) (c : Cost) : Leaders :=
  if c.isProvisional then { l with provisional := lead choose l.provisional c }
  else if counts c then { l with settled := lead choose l.settled c }
  else l

/-- The leaders after all costs. -/
def pass (counts : Cost → Bool) (choose : Cost → Cost → Cost) (xs : List Cost) : Leaders :=
  xs.foldl (meet counts choose) ⟨none, none⟩

theorem foldl_meet {counts : Cost → Bool} {choose : Cost → Cost → Cost}
    (hcounts : ∀ c, c.isProvisional = true → counts c = false) (l : Leaders) :
    xs.foldl (meet counts choose) l =
      ⟨(xs.filter counts).foldl (lead choose) l.settled,
        (xs.filter isProvisional).foldl (lead choose) l.provisional⟩ := by
  induction xs generalizing l with
  | nil => rfl
  | cons c xs ih =>
    by_cases hprov : c.isProvisional = true
    · simp [ih, meet, hprov, hcounts c hprov]
    · by_cases hcount : counts c = true <;> simp [ih, meet, hprov, hcount]

theorem foldl_lead {choose : Cost → Cost → Cost} (c : Cost) :
    xs.foldl (lead choose) (some c) = some (xs.foldl choose c) := by
  induction xs generalizing c with
  | nil => rfl
  | cons d xs ih => exact ih (choose c d)

theorem foldl_lead_min : xs.foldl (lead min) none = xs.min? := by
  cases xs with
  | nil => rfl
  | cons c xs => exact foldl_lead c

theorem foldl_lead_max : xs.foldl (lead max) none = xs.max? := by
  cases xs with
  | nil => rfl
  | cons c xs => exact foldl_lead c

end Leaders

/-- The best cost in one pass: the settled leader, else the provisional one. -/
def bestInPass (xs : List Cost) : Cost :=
  let l := Leaders.pass isSettledFinite min xs
  (l.settled.or l.provisional).getD infinity

/-- The worst cost in one pass: the provisional leader, else the settled one. -/
def worstInPass (xs : List Cost) : Cost :=
  let l := Leaders.pass isSettled max xs
  (l.provisional.or l.settled).getD undefined

theorem bestInPass_eq (xs : List Cost) : bestInPass xs = best xs := by
  have hcounts : ∀ c : Cost, c.isProvisional = true → c.isSettledFinite = false := by
    rintro (_ | ⟨v, _ | _⟩ | _) h <;> simp_all [isProvisional, isSettledFinite]
  unfold bestInPass best Leaders.pass
  simp only [Leaders.foldl_meet hcounts, Leaders.foldl_lead_min]
  cases (xs.filter isSettledFinite).min? <;> rfl

theorem worstInPass_eq (xs : List Cost) : worstInPass xs = worst xs := by
  have hcounts : ∀ c : Cost, c.isProvisional = true → c.isSettled = false := by
    rintro (_ | ⟨v, _ | _⟩ | _) h <;> simp_all [isProvisional, isSettled]
  unfold worstInPass worst Leaders.pass
  simp only [Leaders.foldl_meet hcounts, Leaders.foldl_lead_max]
  cases (xs.filter isProvisional).max? <;> rfl

/-! ### Laws -/

/-- How the aggregates of two groups of costs hang together with each other and with their parts. -/
structure Aggregation (xs ys : List Cost) : Prop where
  inPass : bestInPass xs = best xs ∧ worstInPass xs = worst xs
  perm : xs.Perm ys → best xs = best ys ∧ worst xs = worst ys
  append : best (xs ++ ys) = best [best xs, best ys] ∧ worst (xs ++ ys) = worst [worst xs, worst ys]
  successor : best (xs.map successor) = (best xs).successor ∧
    worst (xs.map successor) = (worst xs).successor
  least : ∀ c ∈ xs, c.isSettledFinite = true →
    best xs ∈ xs ∧ (best xs).isSettledFinite = true ∧ best xs ≤ c
  greatest : ∀ c ∈ xs, c.isProvisional = true →
    worst xs ∈ xs ∧ (worst xs).isProvisional = true ∧ c ≤ worst xs

theorem best_le_of_settled (hc : c ∈ xs) (hsettled : c.isSettledFinite = true) :
    best xs ∈ xs ∧ (best xs).isSettledFinite = true ∧ best xs ≤ c := by
  obtain ⟨k, rfl⟩ := isSettledFinite_iff.1 hsettled
  obtain ⟨m, hm, hmk⟩ := best_of_settled hc
  have hmem := best_mem_or_eq_infinity xs
  rw [hm] at hmem ⊢
  refine ⟨?_, rfl, settled_le_settled.2 hmk⟩
  simpa [settled] using hmem.imp_right And.left

theorem le_worst_of_provisional (hc : c ∈ xs) (hprov : c.isProvisional = true) :
    worst xs ∈ xs ∧ (worst xs).isProvisional = true ∧ c ≤ worst xs := by
  obtain ⟨k, rfl⟩ := isProvisional_iff.1 hprov
  obtain ⟨m, hm, hkm⟩ := worst_of_provisional hc
  have hmem := worst_mem_or_eq_undefined xs
  rw [hm] at hmem ⊢
  refine ⟨?_, rfl, provisional_le_provisional.2 hkm⟩
  simpa [provisional] using hmem

/-- Best and worst depend neither on the order of the costs nor on how they are grouped, they take
one more step along, and they favour settled and provisional costs. -/
theorem best_and_worst_aggregate (xs ys : List Cost) : Aggregation xs ys where
  inPass := ⟨bestInPass_eq xs, worstInPass_eq xs⟩
  perm h := by
    have hbest := (first_best xs).perm (h.cons infinity)
    have hworst := (first_worst xs).perm (h.cons undefined)
    exact ⟨hbest.unique preference_injective (first_best ys),
      hworst.unique urgency_injective (first_worst ys)⟩
  append := by
    have hbest := (first_best xs).append (first_best ys) (first_best [best xs, best ys])
    have hworst := (first_worst xs).append (first_worst ys) (first_worst [worst xs, worst ys])
    exact ⟨(first_best (xs ++ ys)).unique preference_injective hbest,
      (first_worst (xs ++ ys)).unique urgency_injective hworst⟩
  successor := by
    have hbest := (first_best xs).map preference_successor rfl
    have hworst := (first_worst xs).map urgency_successor rfl
    exact ⟨(first_best _).unique preference_injective hbest,
      (first_worst _).unique urgency_injective hworst⟩
  least c hc hsettled := best_le_of_settled hc hsettled
  greatest c hc hprov := le_worst_of_provisional hc hprov

/-- Costs of all kinds, some of them with the largest number of steps. -/
def assorted : List Cost :=
  [settled 0xFFFFFFFF, undefined, provisional 0xFFFFFFFF, infinity, settled 7, provisional 3]

theorem assorted_aggregate :
    assorted.Perm assorted.reverse ∧ best assorted.reverse = settled 7 ∧
      worst (assorted.map successor) = provisional 0xFFFFFFFF ∧
      best (assorted ++ assorted.reverse) = settled 7 := by
  have hperm : assorted.Perm assorted.reverse := by decide
  have h := best_and_worst_aggregate assorted assorted.reverse
  refine ⟨hperm, ?_, ?_, ?_⟩
  · rw [← (h.perm hperm).1]
    decide
  · rw [h.successor.2]
    decide
  · rw [h.append.1]
    decide

end EpistemicPlanning.Cost
