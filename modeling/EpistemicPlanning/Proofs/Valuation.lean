import Mathlib.Data.List.Sort
import EpistemicPlanning.Valuation

/-!
# Valuations as sets

Whatever words it stores, a valuation is the set of the handles that it makes true: writing one
truth value changes no other, valuations are the same when they make the same handles true, and
these are listed in ascending order.
-/
namespace EpistemicPlanning.Valuation

variable {v u : Valuation} {id : PredicateId} {w : UInt64} {i j : Nat}

/-! ### Words and bits -/

/-- A stored word, or zero. -/
def word (v : Valuation) (i : Nat) : UInt64 := v.words[i]?.getD 0

@[simp] theorem testBit_zero : testBit 0 i = false := by
  simp [testBit]

theorem testBit_or_bit (hi : i < 64) :
    testBit (w ||| bit i) j = (testBit w j || decide (j = i)) := by
  simp [testBit, bit, BitVec.getLsbD_twoPow, hi, eq_comm]

theorem testBit_and_not_bit (hj : j < 64) :
    testBit (w &&& ~~~bit i) j = (testBit w j && !decide (j = i)) := by
  simp only [testBit, bit, UInt64.toBitVec_and, UInt64.toBitVec_not, BitVec.getLsbD_and,
    BitVec.getLsbD_not, BitVec.getLsbD_twoPow, hj]
  by_cases h : j = i
  · simp [h, h ▸ hj]
  · simp [h, Ne.symm h]

theorem eq_of_testBit {w w' : UInt64} (h : ∀ j < 64, testBit w j = testBit w' j) : w = w' := by
  apply UInt64.eq_of_toBitVec_eq
  exact BitVec.eq_of_getLsbD_eq h

@[simp] theorem get_allFalse : allFalse.get id = false := rfl

theorem get_eq_testBit (v : Valuation) (id : PredicateId) :
    v.get id = testBit (v.word (id.index / 64)) (id.index % 64) := by
  unfold get word
  cases v.words[id.index / 64]? <;> simp

theorem word_set_true : (v.set id true).word i =
    if i = id.index / 64 then v.word i ||| bit (id.index % 64) else v.word i := by
  simp only [set, word, if_true, Array.getElem?_modify, Array.getElem?_append,
    Array.getElem?_replicate]
  grind

theorem word_set_false : (v.set id false).word i =
    if i = id.index / 64 then v.word i &&& ~~~bit (id.index % 64) else v.word i := by
  simp only [set, word, Bool.false_eq_true, if_false, Array.getElem?_modify]
  cases v.words[i]? with
  | none => simp
  | some w =>
    by_cases h : i = id.index / 64
    · simp [h]
    · simp [h, Ne.symm h]

/-! ### Writing and reading -/

/-- Writing a truth value changes this one and no other. -/
theorem get_set (v : Valuation) (id id' : PredicateId) (b : Bool) :
    (v.set id b).get id' = if id' = id then b else v.get id' := by
  obtain ⟨k⟩ := id
  obtain ⟨k'⟩ := id'
  have hlt : ∀ n, n % 64 < 64 := fun n => Nat.mod_lt n (by decide)
  have hsame : k' = k ↔ k' / 64 = k / 64 ∧ k' % 64 = k % 64 := by omega
  rw [get_eq_testBit, get_eq_testBit]
  cases b with
  | true =>
    rw [word_set_true]
    by_cases hword : k' / 64 = k / 64
    · by_cases hbit : k' % 64 = k % 64 <;>
        simp [hsame, hword, hbit, testBit_or_bit (hlt k)]
    · simp [hsame, hword]
  | false =>
    rw [word_set_false]
    by_cases hword : k' / 64 = k / 64
    · by_cases hbit : k' % 64 = k % 64 <;> simp [hsame, hword, hbit, testBit_and_not_bit (hlt _)]
    · simp [hsame, hword]

/-! ### The same valuation -/

theorem same_iff_word : v.same u = true ↔ ∀ i, v.word i = u.word i := by
  simp only [same, List.all_eq_true, List.mem_range, beq_iff_eq]
  constructor
  · intro h i
    by_cases hi : i < max v.words.size u.words.size
    · exact h i hi
    · simp [word, show v.words[i]? = none by simp; omega, show u.words[i]? = none by simp; omega]
  · intro h i _
    exact h i

theorem same_iff_get : v.same u = true ↔ ∀ id, v.get id = u.get id := by
  rw [same_iff_word]
  constructor
  · intro h id
    rw [get_eq_testBit, get_eq_testBit, h]
  · intro h i
    apply eq_of_testBit
    intro j hj
    have hget := h ⟨i * 64 + j⟩
    rw [get_eq_testBit, get_eq_testBit] at hget
    simpa [show (i * 64 + j) / 64 = i by omega, show (i * 64 + j) % 64 = j by omega] using hget

/-! ### The true handles -/

theorem mem_trueIds : id ∈ v.trueIds ↔ v.get id = true := by
  simp only [trueIds, List.mem_flatMap, List.mem_map, List.mem_filter, List.mem_range,
    List.mem_zipIdx_iff_getElem?, Array.getElem?_toList, Prod.exists]
  constructor
  · rintro ⟨w, i, hw, j, ⟨hj, hbit⟩, rfl⟩
    simpa [get, show (i * 64 + j) / 64 = i by omega, show (i * 64 + j) % 64 = j by omega, hw]
      using hbit
  · intro h
    cases hw : v.words[id.index / 64]? with
    | none => simp [get, hw] at h
    | some w =>
      simp only [get, hw] at h
      exact ⟨w, id.index / 64, hw, id.index % 64, ⟨Nat.mod_lt _ (by decide), h⟩,
        congrArg Handle.mk (Nat.div_add_mod' id.index 64)⟩

theorem trueIds_ascending (v : Valuation) :
    v.trueIds.Pairwise fun id id' => id.index < id'.index := by
  refine List.pairwise_flatMap.2 ⟨?_, ?_⟩
  · rintro ⟨w, i⟩ _
    refine List.pairwise_map.2 ((List.pairwise_lt_range.filter _).imp fun h => ?_)
    exact Nat.add_lt_add_left h _
  · -- the words are numbered in ascending order
    have hindex : (v.words.toList.zipIdx.map Prod.snd).Pairwise (· < ·) := by
      rw [List.zipIdx_map_snd]
      exact List.pairwise_lt_range'
    refine (List.pairwise_map.1 hindex).imp ?_
    rintro ⟨w, i⟩ ⟨w', i'⟩ hlt _ hid _ hid'
    obtain ⟨j, hj, rfl⟩ := List.mem_map.1 hid
    obtain ⟨j', _, rfl⟩ := List.mem_map.1 hid'
    have := List.mem_range.1 (List.mem_filter.1 hj).1
    simp only at hlt ⊢
    omega

theorem same_iff_trueIds : v.same u = true ↔ v.trueIds = u.trueIds := by
  constructor
  · intro h
    have hmem : ∀ id, id ∈ v.trueIds ↔ id ∈ u.trueIds := by
      intro id
      rw [mem_trueIds, mem_trueIds, same_iff_get.1 h]
    have : Std.Irrefl fun id id' : PredicateId => id.index < id'.index :=
      ⟨fun id => Nat.lt_irrefl id.index⟩
    exact v.trueIds_ascending.eq_of_mem_iff u.trueIds_ascending hmem
  · intro h
    refine same_iff_get.2 fun id => ?_
    rw [Bool.eq_iff_iff, ← mem_trueIds, ← mem_trueIds, h]

/-! ### Handles of 32 bits -/

/-- The true handles as 32-bit numbers: each is the number of the first handle of its word, if that
has 32 bits, plus the number of its bit, and the sum is taken in 32 bits. -/
def trueIds32 (v : Valuation) : List UInt32 :=
  v.words.toList.zipIdx.flatMap fun (w, i) =>
    if i * 64 < UInt32.size then
      ((List.range 64).filter (testBit w)).map fun b => UInt32.ofNat (i * 64) + UInt32.ofNat b
    else []

/-- No word stores a handle of more than 32 bits. -/
def Short (v : Valuation) : Prop := v.words.size * 64 ≤ UInt32.size

theorem Short.set (h : v.Short) (hid : id.index < UInt32.size) (b : Bool) : (v.set id b).Short := by
  have hsize : UInt32.size = 4294967296 := rfl
  cases b <;> simp only [Short, Valuation.set] at * <;> grind

theorem short_ofTrue {ps : List Predicate} (h : ∀ p ∈ ps, p.id.index < UInt32.size) :
    (ofTrue ps).Short :=
  List.foldlRecOn _ _ (by simp [Short, allFalse]) fun _ hv p hp => hv.set (h p hp) true

theorem Short.apply {effects : Effects} (h : v.Short)
    (heffects : ∀ e ∈ effects.entries, e.2.id.index < UInt32.size) : (v.apply effects).Short :=
  List.foldlRecOn _ _ h fun _ hv e he => hv.set (heffects e he) e.2.value

theorem Short.trueIds32 (h : v.Short) :
    v.trueIds32.map (fun i => (⟨i.toNat⟩ : PredicateId)) = v.trueIds := by
  have hsize : UInt32.size = 4294967296 := rfl
  unfold Short at h
  rw [Valuation.trueIds32, trueIds, List.map_flatMap]
  refine List.flatMap_congr fun ⟨w, i⟩ hw => ?_
  have hi : i < v.words.size := by
    have := List.mem_zipIdx' hw
    simpa using this.1
  simp only [show i * 64 < UInt32.size by omega, if_true, List.map_map]
  refine List.map_congr_left fun b hb => ?_
  have hb : b < 64 := List.mem_range.1 (List.mem_filter.1 hb).1
  simp only [Function.comp_apply, Handle.mk.injEq, UInt32.toNat_add, UInt32.toNat_ofNat']
  omega

/-- The valuation has come about by operations on handles of 32 bits. -/
inductive Built : Valuation → Prop
  | allFalse : Built allFalse
  | ofTrue (ps : List Predicate) (h : ∀ p ∈ ps, p.id.index < UInt32.size) : Built (ofTrue ps)
  | set {v : Valuation} (hv : Built v) (id : PredicateId) (b : Bool) (h : id.index < UInt32.size) :
    Built (v.set id b)
  | apply {v : Valuation} (hv : Built v) (effects : Effects)
    (h : ∀ e ∈ effects.entries, e.2.id.index < UInt32.size) : Built (v.apply effects)

theorem Built.short (h : v.Built) : v.Short := by
  induction h with
  | allFalse => simp [Short, Valuation.allFalse]
  | ofTrue ps h => exact short_ofTrue h
  | set _ id b h ih => exact ih.set h b
  | apply _ effects h ih => exact ih.apply h

/-! ### Valuations as sets of handles -/

/-- Two valuations are sets of 32-bit handles: what is written is read and nothing else changes,
they are the same when they have the same elements, and the elements are listed in ascending
order. -/
structure AreSets (v u : Valuation) : Prop where
  get_set : ∀ id b, (v.set id b).get id = b ∧ ∀ id' ≠ id, (v.set id b).get id' = v.get id'
  same_iff_get : v.same u = true ↔ ∀ id, id.index < UInt32.size → v.get id = u.get id
  same_iff_trueIds : v.same u = true ↔ v.trueIds = u.trueIds
  ascending : v.trueIds.Pairwise fun id id' => id.index < id'.index
  mem_trueIds : ∀ id, id ∈ v.trueIds ↔ v.get id = true
  trueIds32 : v.trueIds32.map (fun i => (⟨i.toNat⟩ : PredicateId)) = v.trueIds

theorem Short.index_lt (h : v.Short) (hid : v.get id = true) : id.index < UInt32.size := by
  rw [← mem_trueIds, ← h.trueIds32] at hid
  obtain ⟨i, _, rfl⟩ := List.mem_map.1 hid
  exact i.toNat_lt_size

/-- Whatever operations have led to them, valuations are sets of handles. -/
theorem built_are_sets (hv : v.Built) (hu : u.Built) : v.AreSets u where
  get_set id b := ⟨by simp [get_set], fun id' hne => by simp [get_set, hne]⟩
  same_iff_get := by
    rw [same_iff_get]
    constructor
    · exact fun h id _ => h id
    · intro h id
      by_cases hid : id.index < UInt32.size
      · exact h id hid
      · have hfalse : ∀ {v : Valuation}, v.Short → v.get id = false := fun hshort =>
          Bool.eq_false_iff.2 fun hget => hid (hshort.index_lt hget)
        rw [hfalse hv.short, hfalse hu.short]
  same_iff_trueIds := same_iff_trueIds
  ascending := v.trueIds_ascending
  mem_trueIds _ := mem_trueIds
  trueIds32 := hv.short.trueIds32

/-- The greatest handle of 32 bits. -/
def topId : PredicateId := ⟨0xFFFFFFFF⟩

/-- A valuation that has grown up to the greatest handle and lost it again. -/
def worn : Valuation := (allFalse.set topId true).set topId false

theorem worn_is_empty :
    worn.Built ∧ allFalse.Built ∧ worn.same allFalse = true ∧ worn.trueIds = allFalse.trueIds ∧
      topId ∈ (worn.set topId true).trueIds := by
  have htop : topId.index < UInt32.size := by decide
  have hworn : worn.Built := .set (.set .allFalse topId true htop) topId false htop
  have hsets := built_are_sets hworn .allFalse
  have hsame : worn.same allFalse = true := by
    refine hsets.same_iff_get.2 fun id _ => ?_
    by_cases hid : id = topId <;> simp [worn, get_set, hid]
  have hregrown := built_are_sets (hworn.set topId true htop) hworn
  exact ⟨hworn, .allFalse, hsame, hsets.same_iff_trueIds.1 hsame,
    (hregrown.mem_trueIds topId).2 (hsets.get_set topId true).1⟩

end EpistemicPlanning.Valuation
