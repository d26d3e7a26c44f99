import Mathlib.Data.List.Find
import Mathlib.Data.List.Nodup
import EpistemicPlanning.Proofs.Fallible

/-!
# Computations laid open

An `Inquiry` shows which questions a computation asks and how it goes on with each answer. It can
be carried out by putting every question to a function anew (`Inquiry.answer`), through a memo
(`Inquiry.consult`), or through a store that keeps answers under shorter keys (`Inquiry.lookUp`).
The result is the same each time (`Inquiry.value_consult`, `Inquiry.lookUp_agrees`), in a store as
long as questions with one key are the same question.
-/
namespace EpistemicPlanning

variable {κ ρ σ α β : Type} {f : κ → ρ}

namespace Memo

variable [DecidableEq κ] {m : Memo f} {k : κ}

theorem ask_remembered {e : κ × ρ} (h : (m.entries.find? fun e => e.1 = k) = some e) :
    m.ask k = (f k, m) := by
  refine Prod.ext (ask_fst m k) ?_
  unfold ask
  split
  · rfl
  · next hnone =>
    rw [h] at hnone
    cases hnone

theorem entries_ask_new (h : (m.entries.find? fun e => e.1 = k) = none) :
    (m.ask k).2.entries = (k, f k) :: m.entries := by
  unfold ask
  split
  · next e hsome =>
    rw [h] at hsome
    cases hsome
  · rfl

end Memo

/-- A computation that is done, or that asks a question and goes on with the answer. -/
inductive Inquiry (κ ρ α : Type) : Type
  | done (a : α)
  | ask (k : κ) (go : ρ → Inquiry κ ρ α)

namespace Inquiry

/-- One inquiry after another. -/
protected def bind : Inquiry κ ρ α → (α → Inquiry κ ρ β) → Inquiry κ ρ β
  | done a, g => g a
  | ask k go, g => ask k fun r => (go r).bind g

instance : Monad (Inquiry κ ρ) where
  pure := done
  bind := Inquiry.bind

theorem bind_done (x : Inquiry κ ρ α) : x.bind done = x := by
  induction x with
  | done a => rfl
  | ask k go ih => exact congrArg (ask k) (funext ih)

theorem bind_bind {γ : Type} (x : Inquiry κ ρ α) (g : α → Inquiry κ ρ β) (h : β → Inquiry κ ρ γ) :
    (x.bind g).bind h = x.bind fun a => (g a).bind h := by
  induction x with
  | done a => rfl
  | ask k go ih => exact congrArg (ask k) (funext ih)

instance : LawfulMonad (Inquiry κ ρ) :=
  LawfulMonad.mk' _ bind_done (fun _ _ => rfl) bind_bind

/-- The inquiry of a single question. -/
def question (k : κ) : Inquiry κ ρ ρ := ask k done

/-! ### Asking anew -/

/-- The result when every question is put to `f`. -/
def answer (f : κ → ρ) : Inquiry κ ρ α → α
  | done a => a
  | ask k go => (go (f k)).answer f

/-- The questions that are put to `f`, in order. -/
def asked (f : κ → ρ) : Inquiry κ ρ α → List κ
  | done _ => []
  | ask k go => k :: (go (f k)).asked f

theorem answer_bind (x : Inquiry κ ρ α) (g : α → Inquiry κ ρ β) :
    (x >>= g).answer f = (g (x.answer f)).answer f := by
  induction x with
  | done a => rfl
  | ask k go ih => exact ih (f k)

theorem asked_bind (x : Inquiry κ ρ α) (g : α → Inquiry κ ρ β) :
    (x >>= g).asked f = x.asked f ++ (g (x.answer f)).asked f := by
  induction x with
  | done a => rfl
  | ask k go ih => exact congrArg (k :: ·) (ih (f k))

/-- Whatever the answers, all questions are of one kind. -/
def Only (P : κ → Prop) : Inquiry κ ρ α → Prop
  | done _ => True
  | ask k go => P k ∧ ∀ r, (go r).Only P

theorem Only.bind {P : κ → Prop} {x : Inquiry κ ρ α} {g : α → Inquiry κ ρ β} (hx : x.Only P)
    (hg : ∀ a, (g a).Only P) : (x >>= g).Only P := by
  induction x with
  | done a => exact hg a
  | ask k go ih => exact ⟨hx.1, fun r => ih r (hx.2 r)⟩

theorem Only.of_asked {P : κ → Prop} {x : Inquiry κ ρ α} (hx : x.Only P) :
    ∀ k ∈ x.asked f, P k := by
  induction x with
  | done a =>
    intro k hk
    cases hk
  | ask k go ih =>
    intro k' hk'
    rcases List.mem_cons.1 hk' with rfl | hk'
    · exact hx.1
    · exact ih (f k) (hx.2 (f k)) k' hk'

/-! ### Asking through a memo -/

section

variable [DecidableEq κ]

/-- Carries out an inquiry through a memo of `f`. -/
def consult (f : κ → ρ) : Inquiry κ ρ α → Consult f α
  | done a => pure a
  | ask k go => Consult.ask k >>= fun r => (go r).consult f

theorem consult_bind (x : Inquiry κ ρ α) (g : α → Inquiry κ ρ β) :
    (x >>= g).consult f = x.consult f >>= fun a => (g a).consult f := by
  induction x with
  | done a => rfl
  | ask k go ih =>
    change (Consult.ask k >>= fun r => (go r >>= g).consult f) = _
    rw [consult, bind_assoc]
    exact congrArg _ (funext ih)

/-- A memo does not change the result. -/
theorem value_consult (x : Inquiry κ ρ α) : (x.consult f).value = x.answer f := by
  induction x with
  | done a => rfl
  | ask k go ih =>
    rw [consult, Consult.value_bind, Consult.value_ask]
    exact ih (f k)

/-- Memos of one function that remember the same answers cannot be told apart by an inquiry. -/
theorem consult_congr {f' : κ → ρ} {m : Memo f} {m' : Memo f'} (hf : f = f')
    (hm : m.entries = m'.entries) (x : Inquiry κ ρ α) :
    ((x.consult f).run m).1 = ((x.consult f').run m').1 ∧
      ((x.consult f).run m).2.entries = ((x.consult f').run m').2.entries := by
  subst hf
  obtain rfl : m = m' := by
    cases m
    cases m'
    cases hm
    rfl
  exact ⟨rfl, rfl⟩

end

/-! ### Asking through a store -/

/-- Answers kept under keys, and the keys for which answers were worked out, latest first. -/
structure Store (σ ρ : Type) where
  entries : List (σ × ρ)
  runs : List σ

/-- Carries out an inquiry through a store, in which the answer to a question is kept under its key.
The question is put to `f` only if there is no answer under the key. -/
def lookUp [DecidableEq σ] (key : κ → σ) (f : κ → ρ) :
    Inquiry κ ρ α → Store σ ρ → α × Store σ ρ
  | done a, s => (a, s)
  | ask k go, s =>
    match s.entries.find? fun e => e.1 = key k with
    | some e => (go e.2).lookUp key f s
    | none => (go (f k)).lookUp key f ⟨(key k, f k) :: s.entries, key k :: s.runs⟩

variable {key : κ → σ} {P : κ → Prop} {s : Store σ ρ} {m : Memo f}

/-- A store keeps what a memo of questions of one kind remembers. -/
structure Store.Mirrors (key : κ → σ) (P : κ → Prop) (s : Store σ ρ) (m : Memo f) : Prop where
  entries : s.entries = m.entries.map fun e => (key e.1, e.2)
  runs : s.runs = s.entries.map Prod.fst
  kind : ∀ e ∈ m.entries, P e.1

theorem Store.mirrors_empty : Store.Mirrors key P ⟨[], []⟩ (∅ : Memo f) where
  entries := rfl
  runs := rfl
  kind _ he := nomatch he

variable (hkey : ∀ k k', P k → P k' → key k = key k' → k = k')

include hkey

/-- No question is worked out twice. -/
theorem Store.Mirrors.nodup_runs (h : s.Mirrors key P m) : s.runs.Nodup := by
  have hruns : s.runs = (m.entries.map Prod.fst).map key := by
    rw [h.runs, h.entries, List.map_map, List.map_map]
    rfl
  rw [hruns]
  refine List.Nodup.map_on (fun k hk k' hk' heq => ?_) m.distinct
  obtain ⟨e, he, rfl⟩ := List.mem_map.1 hk
  obtain ⟨e', he', rfl⟩ := List.mem_map.1 hk'
  exact hkey _ _ (h.kind e he) (h.kind e' he') heq

variable [DecidableEq κ] [DecidableEq σ]

/-- Looking under the key of a question finds what the memo has under the question. -/
theorem Store.Mirrors.find?_eq (h : s.Mirrors key P m) {k : κ} (hk : P k) :
    (s.entries.find? fun e => e.1 = key k) =
      (m.entries.find? fun e => e.1 = k).map fun e => (key e.1, e.2) := by
  rw [h.entries, List.find?_map]
  congr 1
  refine List.find?_congr fun e he => ?_
  refine decide_eq_decide.2 ⟨fun heq => hkey _ _ (h.kind e he) hk heq, fun heq => ?_⟩
  exact congrArg key heq

/-- As long as questions with one key are the same, an inquiry through a store has the result of an
inquiry that asks anew, and the store remembers as much as a memo would. -/
theorem lookUp_agrees (x : Inquiry κ ρ α) (hx : ∀ k ∈ x.asked f, P k) (h : s.Mirrors key P m) :
    (x.lookUp key f s).1 = x.answer f ∧
      (x.lookUp key f s).2.Mirrors key P ((x.consult f).run m).2 := by
  induction x generalizing s m with
  | done a => exact ⟨rfl, h⟩
  | ask k go ih =>
    have hk : P k := hx k List.mem_cons_self
    have hrest : ∀ k' ∈ (go (f k)).asked f, P k' := fun k' hk' =>
      hx k' (List.mem_cons_of_mem _ hk')
    have hfind := h.find?_eq hkey hk
    have hrun : ((ask k go).consult f).run m = ((go (m.ask k).1).consult f).run (m.ask k).2 := rfl
    cases hmemo : m.entries.find? fun e => e.1 = k with
    | some e =>
      have hanswer : e.2 = f k := by
        have heq : e.1 = k := by simpa using List.find?_some hmemo
        rw [← heq]
        exact m.sound e (List.mem_of_find?_eq_some hmemo)
      rw [hmemo] at hfind
      have hlook : (ask k go).lookUp key f s = (go (f k)).lookUp key f s := by
        rw [lookUp, hfind, ← hanswer]
        rfl
      rw [hlook, hrun, Memo.ask_remembered hmemo]
      exact ih (f k) hrest h
    | none =>
      rw [hmemo] at hfind
      have hlook : (ask k go).lookUp key f s =
          (go (f k)).lookUp key f ⟨(key k, f k) :: s.entries, key k :: s.runs⟩ := by
        rw [lookUp, hfind]
        rfl
      have hnew := Memo.entries_ask_new hmemo
      have hmirrors : Store.Mirrors key P ⟨(key k, f k) :: s.entries, key k :: s.runs⟩
          (m.ask k).2 := by
        refine ⟨?_, congrArg (key k :: ·) h.runs, fun e he => ?_⟩
        · rw [hnew, List.map_cons, ← h.entries]
        · rw [hnew] at he
          rcases List.mem_cons.1 he with rfl | he
          · exact hk
          · exact h.kind e he
      rw [hlook, hrun, Memo.ask_fst]
      exact ih (f k) hrest hmirrors

end Inquiry

end EpistemicPlanning
