import Mathlib.Data.List.Induction
import EpistemicPlanning.Proofs.Predicate.Table
import EpistemicPlanning.Proofs.Valuation

/-!
# Interned predicates

Whatever atoms are used, and in whatever order, a table numbers those that it accepts in the order
of their first use, and what it has once answered it answers from then on. Handles and atoms
determine each other, so effects over the predicates of one table override exactly these predicates
(`interning_is_stable`).
-/
namespace EpistemicPlanning

namespace PredicateTable

variable {t t' : PredicateTable} {a : GroundAtom} {p q : Predicate} {calls later : List GroundAtom}

/-- The table after one more use of an atom. A use that is refused leaves it as it is. -/
def attempt (t : PredicateTable) (a : GroundAtom) : PredicateTable :=
  match t.intern a with
  | .ok (_, t') => t'
  | .error _ => t

/-- The table after some uses. -/
def after (calls : List GroundAtom) : PredicateTable := calls.foldl attempt ∅

@[simp] theorem after_snoc : after (calls ++ [a]) = (after calls).attempt a := by
  simp [after]

theorem after_append : after (calls ++ later) = later.foldl attempt (after calls) := by
  simp [after]

/-! ### One use -/

/-- A use of an atom adds at most its own predicate, and then this is the answer. -/
theorem has_attempt_iff : (t.attempt a).Has p ↔
    t.Has p ∨ p.atom = a ∧ t.intern a = .ok (p, t.attempt a) := by
  unfold attempt
  have hresult := t.interned a
  generalize t.intern a = result at hresult
  cases hresult with
  | blank | full => simp
  | known _ hq _ =>
    simp only [Except.ok.injEq, Prod.mk.injEq, and_true]
    exact ⟨.inl, fun h => h.elim id fun h => h.2 ▸ hq⟩
  | new _ ha _ =>
    simp only [has_add_iff ha, Except.ok.injEq, Prod.mk.injEq, and_true]
    grind

theorem has_of_intern (h : t.intern a = .ok (p, t')) :
    t'.Has p ∧ p.atom = a ∧ t' = t.attempt a := by
  have hresult := t.interned a
  have hattempt : t.attempt a = t' := by simp [attempt, h]
  rw [h] at hresult
  cases hresult with
  | known _ hp ha => exact ⟨hp, ha, hattempt.symm⟩
  | new _ ha => exact ⟨(has_add_iff ha).2 (.inr rfl), rfl, hattempt.symm⟩

theorem Has.intern_eq (h : t.Has p) (hblank : Text.isBlank p.atom.name = false) :
    t.intern p.atom = .ok (p, t) := by
  simp [intern, hblank, h.find?_eq]

/-! ### All uses -/

theorem Has.foldl (h : t.Has p) (later : List GroundAtom) : (later.foldl attempt t).Has p :=
  List.foldlRecOn (motive := fun t : PredicateTable => t.Has p) _ _ h fun _ ht _ _ =>
    has_attempt_iff.2 (.inl ht)

/-- The atoms with a visible name, each where it is used first. -/
def firstUses (calls : List GroundAtom) : List GroundAtom :=
  (calls.filter fun a => !Text.isBlank a.name).eraseDups

theorem firstUses_snoc : firstUses (calls ++ [a]) =
    firstUses calls ++ if Text.isBlank a.name ∨ a ∈ firstUses calls then [] else [a] := by
  simp only [firstUses, List.filter_append, List.eraseDups_append, List.mem_eraseDups]
  by_cases hblank : Text.isBlank a.name = true
  · simp [hblank, List.removeAll]
  · by_cases ha : a ∈ calls <;> simp [hblank, ha, List.removeAll, List.eraseDups_cons]

theorem atoms_after (calls : List GroundAtom) :
    (after calls).atoms = (firstUses calls).take UInt32.size := by
  induction calls using List.reverseRecOn with
  | nil => rfl
  | append_singleton calls a ih =>
    rw [after_snoc, firstUses_snoc, attempt]
    have hresult := (after calls).interned a
    generalize (after calls).intern a = result at hresult
    have hlength := congrArg List.length ih
    rw [List.length_take] at hlength
    cases hresult with
    | blank hblank => simp [hblank, ih]
    | known _ hp ha =>
      subst ha
      have hmem := List.mem_of_mem_take (ih ▸ hp.mem_atoms)
      simp [hmem, ih]
    | new hblank ha hroom =>
      unfold size at hroom
      have hall : (firstUses calls).take UInt32.size = firstUses calls :=
        List.take_of_length_le (by omega)
      have hnot : ¬(Text.isBlank a.name = true ∨ a ∈ firstUses calls) := by
        simpa [hblank, ih, hall] using ha
      rw [if_neg hnot, List.take_of_length_le (by simp; omega)]
      simp [atoms_add ha, ih, hall]
    | full _ _ hfull =>
      unfold size at hfull
      rw [List.take_append_of_le_length (by omega), ih]

/-- Accepted atoms have a visible name. -/
theorem Has.visible (h : (after calls).Has p) : Text.isBlank p.atom.name = false := by
  have hmem := List.mem_of_mem_take (atoms_after calls ▸ h.mem_atoms)
  simpa using (List.mem_filter.1 (List.mem_eraseDups.1 hmem)).2

/-- A predicate is in the table when a use of its atom has answered it. -/
theorem has_after_iff : (after calls).Has p ↔ ∃ before rest t',
    calls = before ++ p.atom :: rest ∧ (after before).intern p.atom = .ok (p, t') := by
  constructor
  · intro h
    induction calls using List.reverseRecOn with
    | nil => exact absurd h.mem_atoms List.not_mem_nil
    | append_singleton calls a ih =>
      rw [after_snoc, has_attempt_iff] at h
      rcases h with h | ⟨rfl, hanswer⟩
      · obtain ⟨before, rest, t', rfl, hanswer⟩ := ih h
        exact ⟨before, rest ++ [a], t', by simp, hanswer⟩
      · exact ⟨calls, [], _, rfl, hanswer⟩
  · rintro ⟨before, rest, t', rfl, hanswer⟩
    obtain ⟨hp, _, rfl⟩ := has_of_intern hanswer
    rw [after_append]
    exact hp.foldl rest

/-! ### The same uses of an index -/

end PredicateTable

/-- The index after some uses. A use that is refused leaves it as it is. -/
def PredicateIndex.after (calls : List GroundAtom) : PredicateIndex :=
  calls.foldl (fun x a => ((x.intern a).map Prod.snd).toOption.getD x) .empty

theorem PredicateIndex.lists_after (calls : List GroundAtom) :
    (PredicateIndex.after calls).Lists (PredicateTable.after calls) := by
  induction calls using List.reverseRecOn with
  | nil => exact lists_empty
  | append_singleton calls a ih =>
    rw [PredicateTable.after_snoc, PredicateIndex.after, List.foldl_append, List.foldl_cons,
      List.foldl_nil, ← PredicateIndex.after, PredicateTable.attempt]
    rcases ih.intern a with ⟨p, t', x', ht, hx, hlists⟩ | ⟨e, ht, hx⟩
    · simpa [ht, hx, Except.map, Except.toOption] using hlists
    · simpa [ht, hx, Except.map, Except.toOption] using ih

/-! ### Effects over one table -/

namespace Valuation

variable {v : Valuation} {id : PredicateId} {l : List (GroundAtom × Assignment)}

theorem get_foldl_of_ne (h : ∀ e ∈ l, e.2.id ≠ id) :
    (l.foldl (fun v e => v.set e.2.id e.2.value) v).get id = v.get id := by
  induction l generalizing v with
  | nil => rfl
  | cons e l ih =>
    rw [List.foldl_cons, ih fun f hf => h f (by simp [hf]), get_set]
    simp [Ne.symm (h e (by simp))]

theorem get_foldl_of_mem (hids : l.Pairwise fun e f => e.2.id ≠ f.2.id)
    {e : GroundAtom × Assignment} (he : e ∈ l) :
    (l.foldl (fun v e => v.set e.2.id e.2.value) v).get e.2.id = e.2.value := by
  induction l generalizing v with
  | nil => cases he
  | cons f l ih =>
    rw [List.pairwise_cons] at hids
    rcases List.mem_cons.1 he with rfl | he
    · rw [List.foldl_cons, get_foldl_of_ne fun f hf => (hids.1 f hf).symm, get_set]
      simp
    · exact ih hids.2 he

/-- Effects override the predicates that they name and leave all others of the table alone. -/
theorem holds_apply {t : PredicateTable} {effects : Effects} {p : Predicate} (v : Valuation)
    (heffects : ∀ e ∈ effects.entries, t.Has ⟨e.2.id, e.1⟩) (hp : t.Has p) :
    (v.apply effects).holds p =
      ((effects.find? p.atom).map Assignment.value).getD (v.holds p) := by
  have hids : effects.entries.Pairwise fun e f => e.2.id ≠ f.2.id := by
    refine effects.ascending.imp_of_mem fun {e f} he hf hlt hid => ?_
    have hatom : e.1 = f.1 := ((heffects e he).id_eq_iff (heffects f hf)).1 hid
    rw [hatom, Std.ReflOrd.compare_self] at hlt
    cases hlt
  cases hfind : effects.find? p.atom with
  | some assigned =>
    have hmem := SortedMap.find?_eq_some_iff.1 hfind
    have hid : assigned.id = p.id := ((heffects _ hmem).id_eq_iff hp).2 rfl
    have hget := get_foldl_of_mem (v := v) hids hmem
    rw [hid] at hget
    exact hget
  | none =>
    refine get_foldl_of_ne fun e he hid => ?_
    have hatom : e.1 = p.atom := ((heffects e he).id_eq_iff hp).1 hid
    have hsome := SortedMap.find?_eq_some_iff.2 he
    rw [hatom, hfind] at hsome
    cases hsome

end Valuation

namespace PredicateTable

/-- What a table answers after some uses, and will answer from then on. -/
structure Stable (calls : List GroundAtom) : Prop where
  blank : ∀ a, Text.isBlank a.name = true →
    (after calls).intern a = .error .emptyPredicateName ∧ after (calls ++ [a]) = after calls
  visible : ∀ a, Text.isBlank a.name = false → (after calls).size < UInt32.size →
    ∃ p, (after calls).intern a = .ok (p, after (calls ++ [a]))
  ids : (after calls).toList.map Predicate.id =
    (List.range (after calls).size).map Handle.mk
  order : (after calls).toList.map Predicate.atom = (firstUses calls).take UInt32.size
  ofId : ∀ id, (id.index < (after calls).size ↔ ∃ p, (after calls).ofId? id = some p) ∧
    ∀ p, (after calls).ofId? id = some p → p.id = id
  find : ∀ a p, (after calls).find? a = some p ↔ ∃ before rest t',
    calls = before ++ a :: rest ∧ (after before).intern a = .ok (p, t')
  id_iff : ∀ p ∈ (after calls).toList, ∀ q ∈ (after calls).toList, p.id = q.id ↔ p.atom = q.atom
  kept : ∀ later, ∀ p ∈ (after calls).toList,
    (after (calls ++ later)).find? p.atom = some p ∧ (after (calls ++ later)).ofId? p.id = some p ∧
      (after (calls ++ later)).intern p.atom = .ok (p, after (calls ++ later))
  indexed : (PredicateIndex.after calls).predicates = (after calls).toList ∧
    ∀ a, (PredicateIndex.after calls).get a = .ok ((after calls).find? a) ∧
      ((PredicateIndex.after calls).intern a).map Prod.fst =
        (((after calls).intern a).map Prod.fst).mapError .refused

variable {calls : List GroundAtom} {a : GroundAtom}

theorem after_snoc_of_blank (h : Text.isBlank a.name = true) :
    (after calls).intern a = .error .emptyPredicateName ∧ after (calls ++ [a]) = after calls := by
  have hintern : (after calls).intern a = .error .emptyPredicateName := by simp [intern, h]
  exact ⟨hintern, by rw [after_snoc, attempt, hintern]⟩

theorem intern_of_visible (h : Text.isBlank a.name = false)
    (hroom : (after calls).size < UInt32.size) :
    ∃ p, (after calls).intern a = .ok (p, after (calls ++ [a])) := by
  rw [after_snoc, attempt]
  have hresult := (after calls).interned a
  generalize (after calls).intern a = result at hresult
  cases hresult with
  | blank hblank => simp [h] at hblank
  | known | new => exact ⟨_, rfl⟩
  | full _ _ hfull => exact absurd hroom (Nat.not_lt.2 hfull)

theorem toList_ids (t : PredicateTable) :
    t.toList.map Predicate.id = (List.range t.size).map Handle.mk := by
  rw [size, List.range_eq_range', ← List.zipIdx_map_snd 0 t.atoms]
  simp only [toList, List.map_map, Function.comp_def]

theorem toList_atoms (t : PredicateTable) : t.toList.map Predicate.atom = t.atoms := by
  simp [toList, Function.comp_def]

theorem ofId?_isSome_iff {t : PredicateTable} {id : PredicateId} :
    id.index < t.size ↔ ∃ p, t.ofId? id = some p := by
  rw [← Option.isSome_iff_exists]
  simp [ofId?, size]

theorem Has.kept {p : Predicate} (h : (after calls).Has p) (later : List GroundAtom) :
    (after (calls ++ later)).find? p.atom = some p ∧ (after (calls ++ later)).ofId? p.id = some p ∧
      (after (calls ++ later)).intern p.atom = .ok (p, after (calls ++ later)) := by
  have hlater : (after (calls ++ later)).Has p := by
    rw [after_append]
    exact h.foldl later
  exact ⟨hlater.find?_eq, ofId?_eq_some_iff.2 ⟨hlater, rfl⟩, hlater.intern_eq h.visible⟩

theorem index_answers (calls : List GroundAtom) (a : GroundAtom) :
    (PredicateIndex.after calls).get a = .ok ((after calls).find? a) ∧
      ((PredicateIndex.after calls).intern a).map Prod.fst =
        (((after calls).intern a).map Prod.fst).mapError .refused := by
  have hlists := PredicateIndex.lists_after calls
  refine ⟨hlists.get_eq a, ?_⟩
  rcases hlists.intern a with ⟨p, t', x', ht, hx, _⟩ | ⟨e, ht, hx⟩
  · rw [ht, hx]
    rfl
  · rw [ht, hx]
    rfl

/-- A table numbers atoms in the order of their first use and keeps to its answers, and effects over
its predicates override exactly those that they name. -/
theorem interning_is_stable (calls : List GroundAtom) :
    Stable calls ∧ ∀ (v : Valuation) (effects : Effects),
      (∀ e ∈ effects.entries, ⟨e.2.id, e.1⟩ ∈ (after calls).toList) →
        ∀ p ∈ (after calls).toList, (v.apply effects).holds p =
          ((effects.find? p.atom).map Assignment.value).getD (v.holds p) := by
  constructor
  · exact {
      blank := fun _ h => after_snoc_of_blank h
      visible := fun _ h hroom => intern_of_visible h hroom
      ids := toList_ids _
      order := by rw [toList_atoms, atoms_after]
      ofId := fun _ => ⟨ofId?_isSome_iff, fun _ h => (ofId?_eq_some_iff.1 h).2⟩
      find := fun a p => by
        rw [find?_eq_some_iff, has_after_iff]
        constructor
        · rintro ⟨h, rfl⟩
          exact h
        · rintro ⟨before, rest, t', rfl, hanswer⟩
          obtain ⟨_, rfl, _⟩ := has_of_intern hanswer
          exact ⟨⟨before, rest, t', rfl, hanswer⟩, rfl⟩
      id_iff := fun p hp q hq => (mem_toList.1 hp).id_eq_iff (mem_toList.1 hq)
      kept := fun later p hp => (mem_toList.1 hp).kept later
      indexed := ⟨(PredicateIndex.lists_after calls).predicates, index_answers calls⟩ }
  · intro v effects heffects p hp
    exact v.holds_apply (fun e he => mem_toList.1 (heffects e he)) (mem_toList.1 hp)

/-- Uses of two atoms, one of them twice, and of one without a name. -/
def gateUses : List GroundAtom := [⟨"open", []⟩, ⟨" ", []⟩, ⟨"at", ["gate"]⟩, ⟨"open", []⟩]

def gateOpen : Predicate := ⟨⟨0⟩, ⟨"open", []⟩⟩

def atGate : Predicate := ⟨⟨1⟩, ⟨"at", ["gate"]⟩⟩

def closing : Effects := .ofList [(gateOpen, false)]

theorem gate_overridden :
    (after gateUses).toList = [gateOpen, atGate] ∧
      (after (gateUses ++ [⟨"near", []⟩])).find? ⟨"at", ["gate"]⟩ = some atGate ∧
      ((Valuation.ofTrue [gateOpen, atGate]).apply closing).holds gateOpen = false ∧
      ((Valuation.ofTrue [gateOpen, atGate]).apply closing).holds atGate = true := by
  have hlist : (after gateUses).toList = [gateOpen, atGate] := by decide +kernel
  have hmem : ∀ p ∈ [gateOpen, atGate], p ∈ (after gateUses).toList := by simp [hlist]
  have hclosing : ∀ e ∈ closing.entries, ⟨e.2.id, e.1⟩ ∈ (after gateUses).toList := by
    rw [hlist]
    decide +kernel
  obtain ⟨hstable, hoverride⟩ := interning_is_stable gateUses
  refine ⟨hlist, (hstable.kept _ atGate (hmem _ (by simp))).1, ?_, ?_⟩
  · rw [hoverride _ _ hclosing gateOpen (hmem _ (by simp))]
    decide +kernel
  · rw [hoverride _ _ hclosing atGate (hmem _ (by simp))]
    decide +kernel

end PredicateTable

end EpistemicPlanning
