import EpistemicPlanning.Ordered.Set

/-!
# Finite maps in key order

A `SortedMap` lists its entries by strictly ascending key. `upsert` is the one way to write: it
changes the value at one key and leaves every other key as it was (`find?_upsert`).
-/
namespace EpistemicPlanning

variable {κ β : Type} [Ord κ]

/-- A finite map, stored as its entries in strictly ascending order of their keys. -/
structure SortedMap (κ : Type) [Ord κ] (β : Type) where
  entries : List (κ × β)
  ascending : entries.Pairwise fun a b => compare a.1 b.1 = .lt
  deriving DecidableEq

namespace SortedMap

/-- The map without entries. -/
def empty : SortedMap κ β := ⟨[], .nil⟩

instance : EmptyCollection (SortedMap κ β) := ⟨empty⟩

instance : Inhabited (SortedMap κ β) := ⟨empty⟩

/-- The keys in ascending order. -/
def keys (m : SortedMap κ β) : SortedSet κ :=
  ⟨m.entries.map Prod.fst, List.pairwise_map.2 m.ascending⟩

/-- The value in the first entry of a list whose key is `k`. -/
def lookup [DecidableEq κ] (k : κ) : List (κ × β) → Option β
  | [] => none
  | (k', b) :: rest => if k' = k then some b else lookup k rest

/-- The value at key `k`. -/
def find? [DecidableEq κ] (m : SortedMap κ β) (k : κ) : Option β := lookup k m.entries

/-- Whether `k` is a key. -/
def contains [DecidableEq κ] (m : SortedMap κ β) (k : κ) : Bool := (m.find? k).isSome

@[simp] theorem find?_empty [DecidableEq κ] (k : κ) : (∅ : SortedMap κ β).find? k = none := rfl

/-- Writes `f` of the present value at key `k` into an ascending list of entries. -/
def upsertInto (k : κ) (f : Option β → β) : List (κ × β) → List (κ × β)
  | [] => [(k, f none)]
  | (k', b) :: rest =>
    match compare k k' with
    | .lt => (k, f none) :: (k', b) :: rest
    | .eq => (k', f (some b)) :: rest
    | .gt => (k', b) :: upsertInto k f rest

theorem fst_mem_upsertInto {k x : κ} {f : Option β → β} {l : List (κ × β)} :
    x ∈ (upsertInto k f l).map Prod.fst → x = k ∨ x ∈ l.map Prod.fst := by
  induction l with
  | nil => simp [upsertInto]
  | cons e rest ih =>
    obtain ⟨k', b⟩ := e
    rw [upsertInto]
    split
    · simp
    · simp only [List.map_cons]
      exact Or.inr
    · simp only [List.map_cons, List.mem_cons] at ih ⊢
      rintro (h | h)
      · exact Or.inr (Or.inl h)
      · exact (ih h).imp_right Or.inr

theorem upsertInto_ascending [Std.TransOrd κ] [Std.LawfulEqOrd κ] {k : κ} {f : Option β → β}
    {l : List (κ × β)} (h : l.Pairwise fun a b => compare a.1 b.1 = .lt) :
    (upsertInto k f l).Pairwise fun a b => compare a.1 b.1 = .lt := by
  induction l with
  | nil => simp [upsertInto]
  | cons e rest ih =>
    obtain ⟨k', b⟩ := e
    rw [List.pairwise_cons] at h
    rw [upsertInto]
    split
    · next hk =>
      refine List.pairwise_cons.2 ⟨fun x hx => ?_, List.pairwise_cons.2 h⟩
      rcases List.mem_cons.1 hx with rfl | hx
      · exact hk
      · exact Std.TransCmp.lt_trans hk (h.1 x hx)
    · exact List.pairwise_cons.2 ⟨fun x hx => h.1 x hx, h.2⟩
    · next hk =>
      refine List.pairwise_cons.2 ⟨fun x hx => ?_, ih h.2⟩
      rcases fst_mem_upsertInto (List.mem_map_of_mem hx) with hxk | hxr
      · rw [hxk]
        exact Std.OrientedCmp.gt_iff_lt.1 hk
      · obtain ⟨y, hy, hyx⟩ := List.mem_map.1 hxr
        rw [← hyx]
        exact h.1 y hy

theorem lookup_eq_none [DecidableEq κ] [Std.TransOrd κ] {k k' : κ} {l : List (κ × β)}
    (hk : compare k k' = .lt) (h : ∀ e ∈ l, compare k' e.1 = .lt) : lookup k l = none := by
  induction l with
  | nil => rfl
  | cons e rest ih =>
    obtain ⟨k'', b⟩ := e
    have hlt : compare k k'' = .lt :=
      Std.TransCmp.lt_trans hk (h (k'', b) List.mem_cons_self)
    have hne : k'' ≠ k := by
      rintro rfl
      rw [Std.ReflOrd.compare_self] at hlt
      cases hlt
    rw [lookup, if_neg hne, ih fun e he => h e (List.mem_cons_of_mem _ he)]

theorem lookup_upsertInto [DecidableEq κ] [Std.TransOrd κ] [Std.LawfulEqOrd κ] {k x : κ}
    {f : Option β → β} {l : List (κ × β)}
    (h : l.Pairwise fun a b => compare a.1 b.1 = .lt) :
    lookup x (upsertInto k f l) = if x = k then some (f (lookup k l)) else lookup x l := by
  induction l with
  | nil => by_cases hx : k = x <;> simp [upsertInto, lookup, hx, eq_comm]
  | cons e rest ih =>
    obtain ⟨k', b⟩ := e
    rw [List.pairwise_cons] at h
    rw [upsertInto]
    split
    · next hk =>
      have hne : k' ≠ k := by
        rintro rfl
        rw [Std.ReflOrd.compare_self] at hk
        cases hk
      have hnone : lookup k ((k', b) :: rest) = none := by
        rw [lookup, if_neg hne, lookup_eq_none hk h.1]
      rw [hnone]
      by_cases hx : x = k
      · subst hx
        simp [lookup]
      · rw [lookup, if_neg (Ne.symm hx), if_neg hx]
    · next hk =>
      have hkk : k = k' := Std.LawfulEqCmp.eq_of_compare hk
      subst hkk
      by_cases hx : x = k
      · subst hx
        simp [lookup]
      · simp [lookup, hx, Ne.symm hx]
    · next hk =>
      have hne : k' ≠ k := by
        rintro rfl
        rw [Std.ReflOrd.compare_self] at hk
        cases hk
      rw [lookup, ih h.2, lookup, lookup, if_neg hne]
      by_cases hx : x = k
      · subst hx
        simp [hne]
      · simp [hx]

section Lawful

variable [Std.TransOrd κ] [Std.LawfulEqOrd κ]

/-- The map whose value at `k` is `f` of the value it had, and which is otherwise unchanged. -/
def upsert (m : SortedMap κ β) (k : κ) (f : Option β → β) : SortedMap κ β :=
  ⟨upsertInto k f m.entries, upsertInto_ascending m.ascending⟩

@[simp] theorem find?_upsert [DecidableEq κ] (m : SortedMap κ β) (k x : κ) (f : Option β → β) :
    (m.upsert k f).find? x = if x = k then some (f (m.find? k)) else m.find? x :=
  lookup_upsertInto m.ascending

/-- The map with value `b` at key `k`. -/
def insert (m : SortedMap κ β) (k : κ) (b : β) : SortedMap κ β := m.upsert k fun _ => b

end Lawful

/-- The map with `f` applied to every value, which also sees the key. -/
def mapValues {γ : Type} (f : κ → β → γ) (m : SortedMap κ β) : SortedMap κ γ :=
  ⟨m.entries.map fun e => (e.1, f e.1 e.2), List.pairwise_map.2 m.ascending⟩

@[simp] theorem find?_mapValues [DecidableEq κ] {γ : Type} (f : κ → β → γ) (m : SortedMap κ β)
    (k : κ) : (m.mapValues f).find? k = (m.find? k).map (f k) := by
  obtain ⟨l, h⟩ := m
  change lookup k (l.map fun e => (e.1, f e.1 e.2)) = (lookup k l).map (f k)
  clear h
  induction l with
  | nil => rfl
  | cons e rest ih =>
    by_cases h : e.1 = k
    · subst h
      simp [lookup]
    · simp [lookup, h, ih]

/-- The map with `f` applied to the value at key `k`, if there is one. -/
def modify [DecidableEq κ] (m : SortedMap κ β) (k : κ) (f : β → β) : SortedMap κ β :=
  m.mapValues fun k' b => if k' = k then f b else b

@[simp] theorem find?_modify [DecidableEq κ] (m : SortedMap κ β) (k x : κ) (f : β → β) :
    (m.modify k f).find? x = if x = k then (m.find? k).map f else m.find? x := by
  rw [modify, find?_mapValues]
  by_cases h : x = k
  · subst h
    simp
  · simp [h]

end SortedMap

end EpistemicPlanning
