/-!
# Memoized functions

A `Memo f` remembers answers of `f`, each under its own key and each correct. A computation that
asks `f` through a memo (`Consult f`) may find an answer there or work it out, but it cannot tell
which: its value is the same whatever the memo holds, and equals the value of the computation that
asks `f` itself (`Consult.value_bind`, `Consult.value_ask`). What the memo does show afterwards is
how many different keys have been asked.
-/
namespace EpistemicPlanning

variable {κ ρ α β : Type} {f : κ → ρ}

/-- Answers of `f` that have been worked out, latest first. -/
structure Memo (f : κ → ρ) where
  entries : List (κ × ρ)
  sound : ∀ e ∈ entries, e.2 = f e.1
  distinct : (entries.map Prod.fst).Nodup

namespace Memo

/-- The memo that remembers nothing. -/
def empty : Memo f := ⟨[], by simp, List.nodup_nil⟩

instance : EmptyCollection (Memo f) := ⟨empty⟩

/-- The number of answers worked out so far. -/
def size (m : Memo f) : Nat := m.entries.length

/-- The memo with one more answer. -/
def remember (m : Memo f) (k : κ) (r : ρ) (hr : r = f k) (hk : k ∉ m.entries.map Prod.fst) :
    Memo f where
  entries := (k, r) :: m.entries
  sound e he := by
    rcases List.mem_cons.1 he with rfl | he
    · exact hr
    · exact m.sound e he
  distinct := List.nodup_cons.2 ⟨hk, m.distinct⟩

theorem not_mem_keys [DecidableEq κ] {m : Memo f} {k : κ}
    (h : m.entries.find? (fun e => e.1 = k) = none) : k ∉ m.entries.map Prod.fst := by
  intro hk
  obtain ⟨e, he, rfl⟩ := List.mem_map.1 hk
  simpa using List.find?_eq_none.1 h e he

/-- The answer of `f` at `k`, worked out only if it is not remembered. -/
def ask [DecidableEq κ] (m : Memo f) (k : κ) : ρ × Memo f :=
  match h : m.entries.find? fun e => e.1 = k with
  | some e => (e.2, m)
  | none =>
    let r : { r : ρ // r = f k } := ⟨f k, rfl⟩
    (r.val, m.remember k r.val r.property (not_mem_keys h))

theorem ask_fst [DecidableEq κ] (m : Memo f) (k : κ) : (m.ask k).1 = f k := by
  unfold ask
  split
  · next e h =>
    have hk : e.1 = k := by simpa using List.find?_some h
    rw [m.sound e (List.mem_of_find?_eq_some h), hk]
  · rfl

end Memo

/-- A computation that may ask `f` through a memo, and whose value does not depend on the memo. -/
structure Consult (f : κ → ρ) (α : Type) where
  run : Memo f → α × Memo f
  run_fst : ∀ m m', (run m).1 = (run m').1

namespace Consult

/-- The computation that asks nothing. -/
@[inline] protected def pure (a : α) : Consult f α := ⟨fun m => (a, m), fun _ _ => rfl⟩

/-- One computation after another. -/
@[inline] protected def bind (x : Consult f α) (g : α → Consult f β) : Consult f β where
  run m :=
    let (a, m') := x.run m
    (g a).run m'
  run_fst m m' := by
    have h := x.run_fst m m'
    simp only [h]
    exact (g _).run_fst _ _

instance : Monad (Consult f) where
  pure := Consult.pure
  bind := Consult.bind

/-- Asks `f` at `k`. -/
def ask [DecidableEq κ] (k : κ) : Consult f ρ where
  run m := m.ask k
  run_fst m m' := by rw [Memo.ask_fst, Memo.ask_fst]

/-- The value of a computation. -/
def value (x : Consult f α) : α := (x.run ∅).1

theorem run_fst_eq_value (x : Consult f α) (m : Memo f) : (x.run m).1 = x.value := x.run_fst m ∅

@[simp] theorem value_pure (a : α) : (pure a : Consult f α).value = a := rfl

@[simp] theorem value_bind (x : Consult f α) (g : α → Consult f β) :
    (x >>= g).value = (g x.value).value :=
  (g x.value).run_fst _ _

@[simp] theorem value_ask [DecidableEq κ] (k : κ) : (ask k : Consult f ρ).value = f k :=
  Memo.ask_fst _ _

end Consult

end EpistemicPlanning
