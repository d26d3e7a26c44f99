import EpistemicPlanning.Predicate.Table
import EpistemicPlanning.Proofs.Ordered

/-!
# What a table of predicates holds

A predicate is in a table when its handle stands there for its atom (`PredicateTable.Has`), and a
handle and an atom each find the predicate that they belong to. A use of an atom ends in one of four
ways (`PredicateTable.Interned`). The same table can be kept in two stores, one by atom and one by
handle (`PredicateIndex`); the stores stay in step and give the same answers.
-/
namespace EpistemicPlanning

namespace PredicateTable

variable {t : PredicateTable} {a : GroundAtom} {p q : Predicate} {id : PredicateId}

/-- The handle of the predicate stands for its atom in the table. -/
def Has (t : PredicateTable) (p : Predicate) : Prop := t.atoms[p.id.index]? = some p.atom

theorem Has.mem_atoms (h : t.Has p) : p.atom ∈ t.atoms := List.mem_of_getElem? h

theorem Has.lt_size (h : t.Has p) : p.id.index < t.size := (List.getElem?_eq_some_iff.1 h).1

theorem mem_toList : p ∈ t.toList ↔ t.Has p := by
  obtain ⟨⟨i⟩, a⟩ := p
  simp only [toList, Has, List.mem_map, List.mem_zipIdx_iff_getElem?, Prod.exists,
    Predicate.mk.injEq, Handle.mk.injEq]
  constructor
  · rintro ⟨a, i, h, rfl, rfl⟩
    exact h
  · exact fun h => ⟨a, i, h, rfl, rfl⟩

theorem ofId?_eq_some_iff : t.ofId? id = some p ↔ t.Has p ∧ p.id = id := by
  obtain ⟨i, a⟩ := p
  unfold ofId? Has
  rw [Option.map_eq_some_iff]
  constructor
  · rintro ⟨b, hb, heq⟩
    obtain ⟨rfl, rfl⟩ := Predicate.mk.inj heq
    exact ⟨hb, rfl⟩
  · rintro ⟨ha, rfl⟩
    exact ⟨a, ha, rfl⟩

/-- In a table predicates with one handle have one atom, and the other way round. -/
theorem Has.id_eq_iff (hp : t.Has p) (hq : t.Has q) : p.id = q.id ↔ p.atom = q.atom := by
  constructor
  · intro h
    have hsome : some p.atom = some q.atom := hp.symm.trans (h ▸ hq)
    exact Option.some.inj hsome
  · intro h
    have hget : t.atoms[p.id.index]? = t.atoms[q.id.index]? := hp.trans (h ▸ hq.symm)
    exact congrArg Handle.mk ((List.getElem?_inj hp.lt_size t.nodup).1 hget)

theorem find?_eq_none_iff : t.find? a = none ↔ a ∉ t.atoms := by
  simp [find?]

theorem has_of_find? (h : t.find? a = some p) : t.Has p ∧ p.atom = a := by
  obtain ⟨i, hi, rfl⟩ := Option.map_eq_some_iff.1 h
  obtain ⟨hlt, hget, _⟩ := List.idxOf?_eq_some_iff.1 hi
  exact ⟨List.getElem?_eq_some_iff.2 ⟨hlt, hget⟩, rfl⟩

theorem find?_eq_some_iff : t.find? a = some p ↔ t.Has p ∧ p.atom = a := by
  constructor
  · exact has_of_find?
  · rintro ⟨hp, rfl⟩
    cases hfind : t.find? p.atom with
    | none => exact absurd hp.mem_atoms (find?_eq_none_iff.1 hfind)
    | some q =>
      obtain ⟨hq, hatom⟩ := has_of_find? hfind
      have hid := (hq.id_eq_iff hp).2 hatom
      obtain ⟨i, a⟩ := p
      obtain ⟨j, b⟩ := q
      simp_all

theorem Has.find?_eq (h : t.Has p) : t.find? p.atom = some p := find?_eq_some_iff.2 ⟨h, rfl⟩

/-! ### One use of an atom -/

theorem atoms_add (h : a ∉ t.atoms) : (t.add a).atoms = t.atoms ++ [a] := by
  simp [add, h]

theorem has_add_iff (h : a ∉ t.atoms) : (t.add a).Has p ↔ t.Has p ∨ p = ⟨⟨t.size⟩, a⟩ := by
  obtain ⟨⟨i⟩, b⟩ := p
  simp only [Has, atoms_add h, size, List.getElem?_append, Predicate.mk.injEq, Handle.mk.injEq]
  by_cases hi : i < t.atoms.length
  · simp [hi, Nat.ne_of_lt hi]
  · rw [if_neg hi, List.getElem?_eq_none (Nat.le_of_not_lt hi), List.getElem?_singleton]
    by_cases hend : i = t.atoms.length
    · simp [hend, eq_comm]
    · simp [hend, show i - t.atoms.length ≠ 0 by omega]

theorem find?_add (h : a ∉ t.atoms) (b : GroundAtom) :
    (t.add a).find? b = if b = a then some ⟨⟨t.size⟩, a⟩ else t.find? b := by
  split
  · next hb => exact find?_eq_some_iff.2 ⟨(has_add_iff h).2 (.inr rfl), hb.symm⟩
  · next hb =>
    cases hfind : t.find? b with
    | none =>
      rw [find?_eq_none_iff] at hfind ⊢
      simp [atoms_add h, hfind, hb]
    | some p =>
      obtain ⟨hp, rfl⟩ := has_of_find? hfind
      exact ((has_add_iff h).2 (.inl hp)).find?_eq

theorem toList_add (h : a ∉ t.atoms) : (t.add a).toList = t.toList ++ [⟨⟨t.size⟩, a⟩] := by
  simp [toList, atoms_add h, List.zipIdx_append, size]

/-- How a use of an atom can end. -/
inductive Interned (t : PredicateTable) (a : GroundAtom) :
    Except ValidationError (Predicate × PredicateTable) → Prop
  | blank (h : Text.isBlank a.name = true) : Interned t a (.error .emptyPredicateName)
  | known (h : Text.isBlank a.name = false) {p : Predicate} (hp : t.Has p) (ha : p.atom = a) :
    Interned t a (.ok (p, t))
  | new (h : Text.isBlank a.name = false) (ha : a ∉ t.atoms) (hroom : t.size < UInt32.size) :
    Interned t a (.ok (⟨⟨t.size⟩, a⟩, t.add a))
  | full (h : Text.isBlank a.name = false) (ha : a ∉ t.atoms) (hfull : UInt32.size ≤ t.size) :
    Interned t a (.error (.malformedState .tableFull))

theorem interned (t : PredicateTable) (a : GroundAtom) : t.Interned a (t.intern a) := by
  unfold intern
  split
  · next hblank => exact .blank hblank
  · next hblank =>
    rw [Bool.not_eq_true] at hblank
    split
    · next p hfind =>
      obtain ⟨hp, ha⟩ := has_of_find? hfind
      exact .known hblank hp ha
    · next hfind =>
      have ha := find?_eq_none_iff.1 hfind
      split
      · next hroom => exact .new hblank ha hroom
      · next hfull => exact .full hblank ha (Nat.le_of_not_lt hfull)

end PredicateTable

/-- A table of predicates in two stores: the handle of each atom, and the predicates in the order of
their handles. -/
structure PredicateIndex where
  byAtom : SortedMap GroundAtom PredicateId
  predicates : List Predicate

namespace PredicateIndex

/-- Why an index gives no answer. -/
inductive Failure where
  | refused (cause : ValidationError)
  /-- The handle of an atom is beyond the listed predicates. -/
  | outOfRange (id : PredicateId)

/-- The index without predicates. -/
def empty : PredicateIndex := ⟨∅, []⟩

/-- The predicate with a handle that the index has given out. -/
def predicate (x : PredicateIndex) (id : PredicateId) : Except Failure Predicate :=
  match x.predicates[id.index]? with
  | some p => .ok p
  | none => .error (.outOfRange id)

/-- The predicate of an atom that is in the index. -/
def get (x : PredicateIndex) (a : GroundAtom) : Except Failure (Option Predicate) :=
  match x.byAtom.find? a with
  | some id => (x.predicate id).map some
  | none => .ok none

/-- The predicate of an atom, together with the index that has it. -/
def intern (x : PredicateIndex) (a : GroundAtom) : Except Failure (Predicate × PredicateIndex) :=
  if Text.isBlank a.name then .error (.refused .emptyPredicateName)
  else
    match x.byAtom.find? a with
    | some id => (x.predicate id).map fun p => (p, x)
    | none =>
      if x.predicates.length < UInt32.size then
        let p : Predicate := ⟨⟨x.predicates.length⟩, a⟩
        .ok (p, ⟨x.byAtom.insert a p.id, x.predicates ++ [p]⟩)
      else .error (.refused (.malformedState .tableFull))

/-- The index holds what the table holds. -/
structure Lists (x : PredicateIndex) (t : PredicateTable) : Prop where
  byAtom : ∀ a, x.byAtom.find? a = (t.find? a).map Predicate.id
  predicates : x.predicates = t.toList

variable {x : PredicateIndex} {t : PredicateTable} {a : GroundAtom} {p : Predicate}

theorem lists_empty : empty.Lists ∅ := ⟨fun _ => rfl, rfl⟩

namespace Lists

theorem predicate_eq (h : x.Lists t) (hp : t.Has p) : x.predicate p.id = .ok p := by
  have hget : x.predicates[p.id.index]? = some p := by
    rw [h.predicates]
    simpa [PredicateTable.toList, List.getElem?_zipIdx, PredicateTable.Has] using
      ⟨_, hp, rfl⟩
  simp [predicate, hget]

theorem get_eq (h : x.Lists t) (a : GroundAtom) : x.get a = .ok (t.find? a) := by
  unfold get
  rw [h.byAtom]
  cases hfind : t.find? a with
  | none => rfl
  | some p =>
    obtain ⟨hp, _⟩ := PredicateTable.has_of_find? hfind
    simp [h.predicate_eq hp, Except.map]

theorem length_eq (h : x.Lists t) : x.predicates.length = t.size := by
  simp [h.predicates, PredicateTable.toList, PredicateTable.size]

theorem add (h : x.Lists t) (ha : a ∉ t.atoms) :
    Lists ⟨x.byAtom.insert a ⟨t.size⟩, x.predicates ++ [⟨⟨t.size⟩, a⟩]⟩ (t.add a) where
  byAtom b := by
    rw [SortedMap.find?_insert, PredicateTable.find?_add ha, h.byAtom]
    split <;> rfl
  predicates := by rw [PredicateTable.toList_add ha, h.predicates]

/-- A use of an atom ends in the same way for the index as for the table. -/
theorem intern (h : x.Lists t) (a : GroundAtom) :
    (∃ p t' x', t.intern a = .ok (p, t') ∧ x.intern a = .ok (p, x') ∧ x'.Lists t') ∨
      ∃ e, t.intern a = .error e ∧ x.intern a = .error (.refused e) := by
  have hresult := t.interned a
  unfold PredicateIndex.intern
  rw [h.byAtom, h.length_eq]
  generalize t.intern a = result at hresult
  cases hresult with
  | blank hblank => exact .inr ⟨_, rfl, by simp [hblank]⟩
  | @known hblank p hp ha =>
    subst ha
    refine .inl ⟨p, t, x, rfl, ?_, h⟩
    simp [hblank, hp.find?_eq, h.predicate_eq hp, Except.map]
  | new hblank ha hroom =>
    refine .inl ⟨_, _, _, rfl, ?_, h.add ha⟩
    simp [hblank, PredicateTable.find?_eq_none_iff.2 ha, hroom]
  | full hblank ha hfull =>
    exact .inr ⟨_, rfl, by simp [hblank, PredicateTable.find?_eq_none_iff.2 ha, hfull]⟩

end Lists

end PredicateIndex

end EpistemicPlanning
