import Mathlib.Data.List.Forall2
import EpistemicPlanning.Memo

/-!
# Computations that may fail

What the success of a compound computation says about its parts, and when such a computation
succeeds (`Fallible.Succeeds`); what the answers of a query tell (`Fallible.Tells`), and how a
computation can fail (`Fallible.FailsOnly`). Computations that consult a memo obey the laws of a
monad.
-/
namespace EpistemicPlanning

namespace Fallible

variable {ε α β : Type}

/-- The result of a computation that succeeds. -/
def get : (x : Except ε α) → x.isOk = true → α
  | .ok a, _ => a

theorem eq_ok_get : (x : Except ε α) → (h : x.isOk = true) → x = .ok (get x h)
  | .ok _, _ => rfl

/-- A result beside something else, found by looking for it. -/
theorem exists_eq_ok_some {x : Except ε (Option α) × β}
    (h : (x.1.toOption.bind id).isSome = true) : ∃ a b, x = (.ok (some a), b) := by
  match x, h with
  | (.ok (some a), b), _ => exact ⟨a, b, rfl⟩

theorem map_eq_ok {f : α → β} {e : Except ε α} {b : β} (h : e.map f = .ok b) :
    ∃ a, e = .ok a ∧ f a = b := by
  cases e with
  | error e => cases h
  | ok a => exact ⟨a, rfl, by simpa [Except.map] using h⟩

theorem map_eq_error {f : α → β} {x : Except ε α} {e : ε} (h : x.map f = .error e) :
    x = .error e := by
  cases x with
  | error e' => exact congrArg _ (Except.error.inj h)
  | ok a => cases h

theorem mapError_eq_ok {ε' : Type} {f : ε → ε'} {e : Except ε α} {a : α}
    (h : e.mapError f = .ok a) : e = .ok a := by
  cases e with
  | error e => cases h
  | ok b => simpa [Except.mapError] using h

theorem mapError_eq_error {ε' : Type} {f : ε → ε'} {x : Except ε α} {e : ε'}
    (h : x.mapError f = .error e) : ∃ m, x = .error m ∧ e = f m := by
  cases x with
  | error m => exact ⟨m, rfl, (Except.error.inj h).symm⟩
  | ok a => cases h

theorem bind_eq_ok {f : α → Except ε β} {e : Except ε α} {b : β} (h : (e >>= f) = .ok b) :
    ∃ a, e = .ok a ∧ f a = .ok b := by
  cases e with
  | error e => cases h
  | ok a => exact ⟨a, rfl, h⟩

theorem bind_eq_error {f : α → Except ε β} {x : Except ε α} {e : ε}
    (h : (x >>= f) = .error e) : x = .error e ∨ ∃ a, x = .ok a ∧ f a = .error e := by
  cases x with
  | error e' => exact Or.inl (congrArg _ (Except.error.inj h))
  | ok a => exact Or.inr ⟨a, rfl, h⟩

theorem mapM_eq_ok {f : α → Except ε β} {l : List α} {bs : List β} (h : l.mapM f = .ok bs) :
    List.Forall₂ (fun a b => f a = .ok b) l bs := by
  induction l generalizing bs with
  | nil =>
    cases h
    exact List.Forall₂.nil
  | cons a l ih =>
    rw [List.mapM_cons] at h
    obtain ⟨b, hb, h⟩ := bind_eq_ok h
    obtain ⟨bs', hbs, h⟩ := bind_eq_ok h
    cases h
    exact List.Forall₂.cons hb (ih hbs)

/-- What each step of a fold keeps holds in the end. -/
theorem foldlM_inv {f : β → α → Except ε β} {l : List α} {b b' : β} (I : β → Prop) (hb : I b)
    (hstep : ∀ a ∈ l, ∀ c c', I c → f c a = .ok c' → I c') (h : l.foldlM f b = .ok b') :
    I b' := by
  induction l generalizing b with
  | nil =>
    cases h
    exact hb
  | cons a l ih =>
    rw [List.foldlM_cons] at h
    obtain ⟨c, hfirst, hrest⟩ := bind_eq_ok h
    exact ih (hstep a List.mem_cons_self b c hb hfirst)
      (fun a' ha' => hstep a' (List.mem_cons_of_mem _ ha')) hrest

theorem anyM_eq_ok_true {f : α → Except ε Bool} {l : List α} (h : l.anyM f = .ok true) :
    ∃ a ∈ l, f a = .ok true := by
  induction l with
  | nil => cases h
  | cons a l ih =>
    obtain ⟨b, hb, h⟩ := bind_eq_ok h
    cases b with
    | true => exact ⟨a, List.mem_cons_self, hb⟩
    | false =>
      obtain ⟨c, hc, hfc⟩ := ih h
      exact ⟨c, List.mem_cons_of_mem _ hc, hfc⟩

theorem anyM_eq_ok_false {f : α → Except ε Bool} {l : List α} (h : l.anyM f = .ok false) :
    ∀ a ∈ l, f a = .ok false := by
  induction l with
  | nil =>
    intro a ha
    cases ha
  | cons a l ih =>
    obtain ⟨b, hb, h⟩ := bind_eq_ok h
    cases b with
    | true => cases h
    | false =>
      intro c hc
      rcases List.mem_cons.1 hc with rfl | hc
      · exact hb
      · exact ih h c hc

theorem allM_eq_ok_true {f : α → Except ε Bool} {l : List α} (h : l.allM f = .ok true) :
    ∀ a ∈ l, f a = .ok true := by
  induction l with
  | nil =>
    intro a ha
    cases ha
  | cons a l ih =>
    obtain ⟨b, hb, h⟩ := bind_eq_ok h
    cases b with
    | false => cases h
    | true =>
      intro c hc
      rcases List.mem_cons.1 hc with rfl | hc
      · exact hb
      · exact ih h c hc

theorem allM_eq_ok_false {f : α → Except ε Bool} {l : List α} (h : l.allM f = .ok false) :
    ∃ a ∈ l, f a = .ok false := by
  induction l with
  | nil => cases h
  | cons a l ih =>
    obtain ⟨b, hb, h⟩ := bind_eq_ok h
    cases b with
    | false => exact ⟨a, List.mem_cons_self, hb⟩
    | true =>
      obtain ⟨c, hc, hfc⟩ := ih h
      exact ⟨c, List.mem_cons_of_mem _ hc, hfc⟩

theorem allM_eq_error {f : α → Except ε Bool} {l : List α} {e : ε} (h : l.allM f = .error e) :
    ∃ a ∈ l, f a = .error e := by
  induction l with
  | nil => cases h
  | cons a l ih =>
    rcases bind_eq_error h with ha | ⟨b, _, h⟩
    · exact ⟨a, List.mem_cons_self, ha⟩
    · cases b with
      | false => cases h
      | true =>
        obtain ⟨c, hc, hfc⟩ := ih h
        exact ⟨c, List.mem_cons_of_mem _ hc, hfc⟩

theorem allM_of_forall {f : α → Except ε Bool} {l : List α} (h : ∀ a ∈ l, f a = .ok true) :
    l.allM f = .ok true := by
  induction l with
  | nil => rfl
  | cons a l ih =>
    rw [List.forall_mem_cons] at h
    rw [List.allM, h.1]
    exact ih h.2

theorem mem_filterAuxM {f : α → Except ε Bool} {l acc as : List α}
    (h : l.filterAuxM f acc = .ok as) (a : α) : a ∈ as ↔ a ∈ acc ∨ a ∈ l ∧ f a = .ok true := by
  induction l generalizing acc with
  | nil =>
    cases h
    simp
  | cons b l ih =>
    obtain ⟨keep, hkeep, h⟩ := bind_eq_ok h
    rw [ih h]
    cases keep with
    | true =>
      simp only [cond_true, List.mem_cons]
      constructor
      · rintro ((rfl | hacc) | ⟨hl, hf⟩)
        · exact Or.inr ⟨Or.inl rfl, hkeep⟩
        · exact Or.inl hacc
        · exact Or.inr ⟨Or.inr hl, hf⟩
      · rintro (hacc | ⟨rfl | hl, hf⟩)
        · exact Or.inl (Or.inr hacc)
        · exact Or.inl (Or.inl rfl)
        · exact Or.inr ⟨hl, hf⟩
    | false =>
      simp only [cond_false, List.mem_cons]
      constructor
      · rintro (hacc | ⟨hl, hf⟩)
        · exact Or.inl hacc
        · exact Or.inr ⟨Or.inr hl, hf⟩
      · rintro (hacc | ⟨rfl | hl, hf⟩)
        · exact Or.inl hacc
        · rw [hkeep] at hf
          cases hf
        · exact Or.inr ⟨hl, hf⟩

theorem mem_filterM {f : α → Except ε Bool} {l as : List α} (h : l.filterM f = .ok as) (a : α) :
    a ∈ as ↔ a ∈ l ∧ f a = .ok true := by
  obtain ⟨bs, hbs, h⟩ := bind_eq_ok h
  cases h
  rw [List.mem_reverse, mem_filterAuxM hbs]
  simp

/-! ### Computations that succeed -/

/-- A computation gives a result. -/
def Succeeds (x : Except ε α) : Prop := ∃ a, x = .ok a

theorem Succeeds.map {x : Except ε α} (h : Succeeds x) (f : α → β) : Succeeds (x.map f) := by
  obtain ⟨a, rfl⟩ := h
  exact ⟨f a, rfl⟩

theorem Succeeds.bind {x : Except ε α} {f : α → Except ε β} (h : Succeeds x)
    (hf : ∀ a, x = .ok a → Succeeds (f a)) : Succeeds (x >>= f) := by
  obtain ⟨a, rfl⟩ := h
  exact hf a rfl

/-- Whichever way a test goes, what follows it succeeds. -/
theorem Succeeds.ite {x : Except ε Bool} {y z : Except ε α} (hx : Succeeds x) (hy : Succeeds y)
    (hz : Succeeds z) : Succeeds (x >>= fun b => if b then y else z) := by
  refine hx.bind fun b _ => ?_
  cases b with
  | true => exact hy
  | false => exact hz

theorem Succeeds.ne_error {x : Except ε α} (h : Succeeds x) (e : ε) : x ≠ .error e := by
  obtain ⟨a, rfl⟩ := h
  intro heq
  cases heq

theorem succeeds_mapM {f : α → Except ε β} {l : List α} (h : ∀ a ∈ l, Succeeds (f a)) :
    Succeeds (l.mapM f) := by
  induction l with
  | nil => exact ⟨[], rfl⟩
  | cons a l ih =>
    rw [List.forall_mem_cons] at h
    rw [List.mapM_cons]
    exact h.1.bind fun b _ => (ih h.2).bind fun bs _ => ⟨b :: bs, rfl⟩

theorem succeeds_allM {f : α → Except ε Bool} {l : List α} (h : ∀ a ∈ l, Succeeds (f a)) :
    Succeeds (l.allM f) := by
  induction l with
  | nil => exact ⟨true, rfl⟩
  | cons a l ih =>
    rw [List.forall_mem_cons] at h
    refine h.1.bind fun b _ => ?_
    cases b with
    | true => exact ih h.2
    | false => exact ⟨false, rfl⟩

theorem succeeds_anyM {f : α → Except ε Bool} {l : List α} (h : ∀ a ∈ l, Succeeds (f a)) :
    Succeeds (l.anyM f) := by
  induction l with
  | nil => exact ⟨false, rfl⟩
  | cons a l ih =>
    rw [List.forall_mem_cons] at h
    refine h.1.bind fun b _ => ?_
    cases b with
    | true => exact ⟨true, rfl⟩
    | false => exact ih h.2

theorem succeeds_filterM {f : α → Except ε Bool} {l : List α} (h : ∀ a ∈ l, Succeeds (f a)) :
    Succeeds (l.filterM f) := by
  have haux : ∀ acc, Succeeds (l.filterAuxM f acc) := by
    induction l with
    | nil => exact fun acc => ⟨acc, rfl⟩
    | cons a l ih =>
      rw [List.forall_mem_cons] at h
      exact fun acc => h.1.bind fun b _ => ih h.2 _
  exact (haux []).bind fun as _ => ⟨as.reverse, rfl⟩

/-- A fold succeeds when each of its steps does as long as what the steps keep holds. -/
theorem succeeds_foldlM {f : β → α → Except ε β} {l : List α} {b : β} (I : β → Prop) (hb : I b)
    (hstep : ∀ a ∈ l, ∀ c, I c → ∃ c', f c a = .ok c' ∧ I c') : Succeeds (l.foldlM f b) := by
  induction l generalizing b with
  | nil => exact ⟨b, rfl⟩
  | cons a l ih =>
    rw [List.forall_mem_cons] at hstep
    obtain ⟨c, hfirst, hc⟩ := hstep.1 b hb
    rw [List.foldlM_cons, hfirst]
    exact ih hc hstep.2

/-! ### What computations tell, and how they fail -/

/-- Whatever a computation answers says whether `p` holds. -/
def Tells (x : Except ε Bool) (p : Prop) : Prop := ∀ b, x = .ok b → (b = true ↔ p)

section

variable {x y z : Except ε Bool} {p q r : Prop}

theorem tells_ok (b : Bool) : Tells (.ok b : Except ε Bool) (b = true) := by
  intro c hc
  rw [Except.ok.inj hc]

theorem Tells.congr (h : Tells x p) (hpq : p ↔ q) : Tells x q := fun b hb => (h b hb).trans hpq

theorem Tells.not (h : Tells x p) : Tells (x.map (!·)) (¬p) := by
  intro b hb
  obtain ⟨c, hc, rfl⟩ := map_eq_ok hb
  rw [← h c hc]
  simp

/-- What follows a test tells what the branch taken does. -/
theorem Tells.ite (hx : Tells x p) (hy : Tells y q) (hz : Tells z r) :
    Tells (x >>= fun b => if b then y else z) ((p → q) ∧ (¬p → r)) := by
  intro b hb
  obtain ⟨c, hc, hb⟩ := bind_eq_ok hb
  have hp := hx c hc
  cases c with
  | true => simp [hp.1 rfl, hy b hb]
  | false =>
    have hno : ¬p := fun h => Bool.false_ne_true (hp.2 h)
    simp [hno, hz b hb]

theorem Tells.allM {f : α → Except ε Bool} {P : α → Prop} {l : List α}
    (h : ∀ a ∈ l, Tells (f a) (P a)) : Tells (l.allM f) (∀ a ∈ l, P a) := by
  intro b hb
  cases b with
  | true =>
    have hall := allM_eq_ok_true hb
    exact iff_of_true rfl fun a ha => (h a ha true (hall a ha)).1 rfl
  | false =>
    -- the walk over the list ended at an element for which the answer was no
    obtain ⟨a, ha, hno⟩ := allM_eq_ok_false hb
    refine iff_of_false Bool.false_ne_true fun hall => ?_
    exact Bool.false_ne_true ((h a ha false hno).2 (hall a ha))

theorem Tells.anyM {f : α → Except ε Bool} {P : α → Prop} {l : List α}
    (h : ∀ a ∈ l, Tells (f a) (P a)) : Tells (l.anyM f) (∃ a ∈ l, P a) := by
  intro b hb
  cases b with
  | true =>
    obtain ⟨a, ha, hyes⟩ := anyM_eq_ok_true hb
    exact iff_of_true rfl ⟨a, ha, (h a ha true hyes).1 rfl⟩
  | false =>
    have hnone := anyM_eq_ok_false hb
    refine iff_of_false Bool.false_ne_true ?_
    rintro ⟨a, ha, hyes⟩
    exact Bool.false_ne_true ((h a ha false (hnone a ha)).2 hyes)

end

/-- If a computation fails, its error satisfies `P`. -/
def FailsOnly (P : ε → Prop) (x : Except ε α) : Prop := ∀ e, x = .error e → P e

section

variable {P Q : ε → Prop}

theorem failsOnly_ok (a : α) : FailsOnly P (.ok a : Except ε α) := by
  intro e h
  cases h

theorem FailsOnly.map {x : Except ε α} (h : FailsOnly P x) (f : α → β) : FailsOnly P (x.map f) :=
  fun e he => h e (map_eq_error he)

theorem FailsOnly.bind {x : Except ε α} {f : α → Except ε β} (hx : FailsOnly P x)
    (hf : ∀ a, x = .ok a → FailsOnly P (f a)) : FailsOnly P (x >>= f) := by
  intro e he
  rcases bind_eq_error he with h | ⟨a, ha, h⟩
  · exact hx e h
  · exact hf a ha e h

theorem FailsOnly.ite {x : Except ε Bool} {y z : Except ε α} (hx : FailsOnly P x)
    (hy : FailsOnly P y) (hz : FailsOnly P z) :
    FailsOnly P (x >>= fun b => if b then y else z) := by
  refine hx.bind fun b _ => ?_
  cases b with
  | true => exact hy
  | false => exact hz

theorem FailsOnly.allM {f : α → Except ε Bool} {l : List α} (h : ∀ a ∈ l, FailsOnly P (f a)) :
    FailsOnly P (l.allM f) := by
  intro e he
  obtain ⟨a, ha, hfail⟩ := allM_eq_error he
  exact h a ha e hfail

end

/-! ### Two computations -/

theorem allM_congr {m : Type → Type} [Monad m] {f g : α → m Bool} {l : List α}
    (h : ∀ a ∈ l, f a = g a) : l.allM f = l.allM g := by
  induction l with
  | nil => rfl
  | cons a l ih =>
    simp only [List.allM, h a List.mem_cons_self,
      ih fun b hb => h b (List.mem_cons_of_mem _ hb)]

/-- Two computations fail with the same error, or succeed with related values. -/
inductive Together (R : α → β → Prop) : Except ε α → Except ε β → Prop
  | error (e : ε) : Together R (.error e) (.error e)
  | ok {a : α} {b : β} (h : R a b) : Together R (.ok a) (.ok b)

theorem Together.eq {R : α → α → Prop} {x y : Except ε α} (h : Together R x y)
    (hR : ∀ a b, R a b → a = b) : x = y := by
  cases h with
  | error e => rfl
  | ok hab => exact congrArg Except.ok (hR _ _ hab)

/-- Two folds over one list, related by what depends on the rest of the list. -/
theorem Together.foldlM {ι : Type} {R : List ι → α → β → Prop} {f : α → ι → Except ε α}
    {g : β → ι → Except ε β} (hstep : ∀ i l a b, R (i :: l) a b → Together (R l) (f a i) (g b i))
    {l : List ι} {a : α} {b : β} (h : R l a b) :
    Together (R []) (l.foldlM f a) (l.foldlM g b) := by
  induction l generalizing a b with
  | nil => exact .ok h
  | cons i l ih =>
    have hfirst := hstep i l a b h
    rw [List.foldlM_cons, List.foldlM_cons]
    generalize f a i = x at hfirst ⊢
    generalize g b i = y at hfirst ⊢
    cases hfirst with
    | error e => exact .error e
    | ok h => exact ih h

end Fallible

namespace Consult

variable {κ ρ α β : Type} {f : κ → ρ}

theorem run_bind (x : Consult f α) (g : α → Consult f β) (m : Memo f) :
    (x >>= g).run m = (g (x.run m).1).run (x.run m).2 := rfl

@[ext] theorem ext {x y : Consult f α} (h : x.run = y.run) : x = y := by
  cases x
  cases y
  cases h
  rfl

instance : LawfulMonad (Consult f) :=
  LawfulMonad.mk' _ (fun _ => rfl) (fun _ _ => rfl) (fun _ _ _ => rfl)

end Consult

end EpistemicPlanning
