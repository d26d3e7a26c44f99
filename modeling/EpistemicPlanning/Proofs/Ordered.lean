import EpistemicPlanning.Ordered.Map

/-!
# Entries of finite maps

A finite map finds a value at a key exactly when it lists the two together, so that what it finds
determines it (`SortedMap.ext`). Writing a list of entries writes the value of each key.
-/
namespace EpistemicPlanning

theorem SortedSet.eq_of_toList {α : Type} [Ord α] {s s' : SortedSet α}
    (h : s.toList = s'.toList) : s = s' := by
  obtain ⟨l, _⟩ := s
  obtain ⟨l', _⟩ := s'
  obtain rfl : l = l' := h
  rfl

theorem SortedSet.insert_eq_self {α : Type} [Ord α] [Std.TransOrd α] [Std.LawfulEqOrd α]
    {s : SortedSet α} {a : α} (ha : a ∈ s) : s.insert a = s := by
  refine ext fun x => ?_
  rw [mem_insert]
  exact ⟨fun h => h.elim (fun heq => heq ▸ ha) id, Or.inr⟩

namespace SortedMap

variable {κ β : Type} [Ord κ]

theorem eq_of_entries {m m' : SortedMap κ β} (h : m.entries = m'.entries) : m = m' := by
  obtain ⟨l, _⟩ := m
  obtain ⟨l', _⟩ := m'
  obtain rfl : l = l' := h
  rfl

theorem mapValues_eq_self {m : SortedMap κ β} {f : κ → β → β}
    (h : ∀ e ∈ m.entries, f e.1 e.2 = e.2) : m.mapValues f = m := by
  refine eq_of_entries ?_
  calc m.entries.map (fun e => (e.1, f e.1 e.2))
    _ = m.entries.map id := List.map_congr_left fun e he => by rw [h e he]; rfl
    _ = m.entries := List.map_id _

variable [Std.LawfulEqOrd κ] [DecidableEq κ]

theorem lookup_eq_some_iff {k : κ} {b : β} {l : List (κ × β)}
    (h : l.Pairwise fun a b => compare a.1 b.1 = .lt) :
    lookup k l = some b ↔ (k, b) ∈ l := by
  induction l with
  | nil => simp [lookup]
  | cons e rest ih =>
    obtain ⟨k', b'⟩ := e
    rw [List.pairwise_cons] at h
    rw [lookup]
    split
    · next heq =>
      subst heq
      constructor
      · intro hb
        rw [Option.some.inj hb]
        exact List.mem_cons_self
      · intro hmem
        rcases List.mem_cons.1 hmem with heq | hmem
        · rw [(Prod.mk.inj heq).2]
        · have hlt := h.1 _ hmem
          rw [Std.ReflOrd.compare_self] at hlt
          cases hlt
    · next hne =>
      rw [ih h.2]
      constructor
      · exact List.mem_cons_of_mem _
      · intro hmem
        rcases List.mem_cons.1 hmem with heq | hmem
        · exact absurd (Prod.mk.inj heq).1.symm hne
        · exact hmem

theorem find?_eq_some_iff {m : SortedMap κ β} {k : κ} {b : β} :
    m.find? k = some b ↔ (k, b) ∈ m.entries := lookup_eq_some_iff m.ascending

variable [Std.TransOrd κ]

/-- A map is determined by what it finds at each key. -/
theorem ext {m m' : SortedMap κ β} (h : ∀ k, m.find? k = m'.find? k) : m = m' := by
  have hnodup : ∀ {l : SortedMap κ β}, l.entries.Nodup := by
    intro l
    refine l.ascending.imp fun {e e'} hlt heq => ?_
    rw [heq, Std.ReflOrd.compare_self] at hlt
    cases hlt
  have hperm : m.entries.Perm m'.entries := by
    refine (List.perm_ext_iff_of_nodup hnodup hnodup).2 fun ⟨k, b⟩ => ?_
    rw [← find?_eq_some_iff, ← find?_eq_some_iff, h]
  refine eq_of_entries (hperm.eq_of_pairwise (fun e e' _ _ hlt hgt => ?_) m.ascending m'.ascending)
  rw [Std.OrientedOrd.eq_swap, hgt] at hlt
  cases hlt

@[simp] theorem find?_insert (m : SortedMap κ β) (k x : κ) (b : β) :
    (m.insert k b).find? x = if x = k then some b else m.find? x :=
  find?_upsert m k x fun _ => b

/-- Writing a value at each of some keys, computed from the key. -/
theorem find?_foldl_insert {f : κ → β} {ks : List κ} {m : SortedMap κ β} {k : κ} :
    ((ks.map fun k => (k, f k)).foldl (fun m kb => m.insert kb.1 kb.2) m).find? k =
      if k ∈ ks then some (f k) else m.find? k := by
  induction ks generalizing m with
  | nil => simp
  | cons x ks ih =>
    change (List.foldl _ (m.insert x (f x)) _).find? k = _
    rw [ih, find?_insert]
    by_cases hk : k ∈ ks
    · simp [hk]
    · by_cases hx : k = x
      · subst hx
        simp
      · simp [hk, hx]

end SortedMap

end EpistemicPlanning
