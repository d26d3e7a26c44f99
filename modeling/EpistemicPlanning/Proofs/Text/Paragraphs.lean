import Mathlib.Data.List.Basic
import Mathlib.Data.List.Induction

/-!
# Runs and paragraphs

A run of elements with a property ends where an element without it follows, so it can be read off
the list that it begins or ends. A paragraph is a heading and the lines below it. Paragraphs can be
read off the list of all their lines, if a property tells lines from headings
(`Paragraph.lines_injective`). If no paragraph is empty, they can even be read off the end of a
longer list (`Paragraph.lines_injective_at_end`).
-/
namespace EpistemicPlanning

variable {α : Type} {P : α → Prop} {xs ys r s : List α}

namespace Text

/-- Two lists that begin with a run are equal only if the runs are. -/
theorem eq_of_begins (hx : ∀ a ∈ xs, P a) (hy : ∀ a ∈ ys, P a) (hr : ∀ a ∈ r.head?, ¬P a)
    (hs : ∀ a ∈ s.head?, ¬P a) (h : xs ++ r = ys ++ s) : xs = ys ∧ r = s := by
  induction xs generalizing ys with
  | nil =>
    cases ys with
    | nil => exact ⟨rfl, h⟩
    | cons y ys =>
      rw [List.nil_append] at h
      exact absurd (hy y List.mem_cons_self) (hr y (h ▸ rfl))
  | cons x xs ih =>
    cases ys with
    | nil =>
      rw [List.nil_append] at h
      exact absurd (hx x List.mem_cons_self) (hs x (h ▸ rfl))
    | cons y ys =>
      obtain ⟨rfl, hrest⟩ := List.cons.inj h
      obtain ⟨rfl, hr⟩ := ih (fun a ha => hx a (List.mem_cons_of_mem _ ha))
        (fun a ha => hy a (List.mem_cons_of_mem _ ha)) hrest
      exact ⟨rfl, hr⟩

/-- Two lists that end with a run are equal only if the runs are. -/
theorem eq_of_ends (hx : ∀ a ∈ xs, P a) (hy : ∀ a ∈ ys, P a) (hr : ∀ a ∈ r.getLast?, ¬P a)
    (hs : ∀ a ∈ s.getLast?, ¬P a) (h : r ++ xs = s ++ ys) : r = s ∧ xs = ys := by
  have hreverse : xs.reverse ++ r.reverse = ys.reverse ++ s.reverse := by
    rw [← List.reverse_append, ← List.reverse_append, h]
  obtain ⟨hxy, hrs⟩ := eq_of_begins (fun a ha => hx a (List.mem_reverse.1 ha))
    (fun a ha => hy a (List.mem_reverse.1 ha)) (by rwa [List.head?_reverse])
    (by rwa [List.head?_reverse]) hreverse
  exact ⟨List.reverse_inj.1 hrs, List.reverse_inj.1 hxy⟩

section Pieces

variable {β : Type} {Q : β → Prop} {f : β → List α} {l l' : List β}
variable (hlast : ∀ b, Q b → ∀ r, ∃ a ∈ (r ++ f b).getLast?, P a)
variable (hstep : ∀ b b', Q b → Q b' → ∀ r s, r ++ f b = s ++ f b' → r = s ∧ b = b')

include hlast hstep

/-- Pieces that can be read off the end of a list one by one can be read off it all together, as
long as what stands before them does not end like a piece. -/
theorem flatMap_injective_at_end (hl : ∀ b ∈ l, Q b) (hl' : ∀ b ∈ l', Q b)
    (hr : ∀ a ∈ r.getLast?, ¬P a) (hs : ∀ a ∈ s.getLast?, ¬P a)
    (h : r ++ l.flatMap f = s ++ l'.flatMap f) : r = s ∧ l = l' := by
  have hconcat : ∀ r l b, r ++ (l ++ [b]).flatMap f = (r ++ l.flatMap f) ++ f b := by simp
  -- from the last piece to the first
  induction l using List.reverseRecOn generalizing l' with
  | nil =>
    rcases l'.eq_nil_or_concat' with rfl | ⟨l', b', rfl⟩
    · exact ⟨List.append_cancel_right h, rfl⟩
    · rw [hconcat, List.flatMap_nil, List.append_nil] at h
      obtain ⟨a, ha, hP⟩ := hlast b' (hl' b' List.mem_concat_self) (s ++ l'.flatMap f)
      exact absurd hP (hr a (h ▸ ha))
  | append_singleton l b ih =>
    have hb := hl b List.mem_concat_self
    rcases l'.eq_nil_or_concat' with rfl | ⟨l', b', rfl⟩
    · rw [hconcat, List.flatMap_nil, List.append_nil] at h
      obtain ⟨a, ha, hP⟩ := hlast b hb (r ++ l.flatMap f)
      exact absurd hP (hs a (h ▸ ha))
    · rw [hconcat, hconcat] at h
      obtain ⟨hrest, rfl⟩ := hstep b b' hb (hl' b' List.mem_concat_self) _ _ h
      obtain ⟨hrs, rfl⟩ := ih (fun b hb => hl b (List.mem_append_left _ hb))
        (fun b hb => hl' b (List.mem_append_left _ hb)) hrest
      exact ⟨hrs, rfl⟩

end Pieces

theorem eq_of_map_eq {β : Type} {f : α → β} (hf : ∀ a ∈ xs, ∀ b ∈ ys, f a = f b → a = b)
    (h : xs.map f = ys.map f) : xs = ys := by
  induction xs generalizing ys with
  | nil => exact (List.map_eq_nil_iff.1 h.symm).symm
  | cons x xs ih =>
    cases ys with
    | nil => cases h
    | cons y ys =>
      obtain ⟨hfirst, hrest⟩ := List.cons.inj h
      obtain rfl := hf x List.mem_cons_self y List.mem_cons_self hfirst
      have hf' : ∀ a ∈ xs, ∀ b ∈ ys, f a = f b → a = b := fun a ha b hb =>
        hf a (List.mem_cons_of_mem _ ha) b (List.mem_cons_of_mem _ hb)
      rw [ih hf' hrest]

end Text

/-- A heading and the lines below it. -/
@[ext]
structure Paragraph (α : Type) where
  heading : α
  below : List α

namespace Paragraph

/-- The lines of some paragraphs, with their headings. -/
def lines (ps : List (Paragraph α)) : List α := ps.flatMap fun p => p.heading :: p.below

/-- A property that lines below a heading have and headings do not. -/
def TellsLines (P : α → Prop) (ps : List (Paragraph α)) : Prop :=
  ∀ p ∈ ps, ¬P p.heading ∧ ∀ a ∈ p.below, P a

variable {p q : Paragraph α} {ps qs : List (Paragraph α)}

theorem not_line_of_head (hps : TellsLines P ps) : ∀ a ∈ (lines ps).head?, ¬P a := by
  intro a ha
  cases ps with
  | nil => cases ha
  | cons p ps =>
    cases ha
    exact (hps p List.mem_cons_self).1

theorem lines_injective (hps : TellsLines P ps) (hqs : TellsLines P qs)
    (h : lines ps = lines qs) : ps = qs := by
  induction ps generalizing qs with
  | nil =>
    cases qs with
    | nil => rfl
    | cons q qs => cases h
  | cons p ps ih =>
    cases qs with
    | nil => cases h
    | cons q qs =>
      obtain ⟨⟨_, hp⟩, hps⟩ := List.forall_mem_cons.1 hps
      obtain ⟨⟨_, hq⟩, hqs⟩ := List.forall_mem_cons.1 hqs
      obtain ⟨hheading, hrest⟩ := List.cons.inj h
      obtain ⟨hbelow, hrest⟩ :=
        Text.eq_of_begins hp hq (not_line_of_head hps) (not_line_of_head hqs) hrest
      rw [ih hps hqs hrest, Paragraph.ext hheading hbelow]

/-! ### At the end of a list -/

theorem line_of_last (hp : ∀ a ∈ p.below, P a) (hne : p.below ≠ []) :
    ∃ a ∈ (r ++ p.heading :: p.below).getLast?, P a := by
  have hlast : (r ++ p.heading :: p.below).getLast? = some (p.below.getLast hne) := by
    rw [List.append_cons, List.getLast?_append, List.getLast?_eq_some_getLast hne, Option.some_or]
  exact ⟨_, hlast, hp _ (List.getLast_mem hne)⟩

/-- Whatever stands before them, paragraphs end with a line. -/
theorem line_of_last_paragraph (hps : TellsLines P ps) (hne : ∀ p ∈ ps, p.below ≠ [])
    (hnil : ps ≠ []) : ∃ a ∈ (r ++ lines ps).getLast?, P a := by
  obtain ⟨qs, p, rfl⟩ := ps.eq_nil_or_concat'.resolve_left hnil
  have hlines : r ++ lines (qs ++ [p]) = r ++ lines qs ++ p.heading :: p.below := by
    simp [lines]
  have hp : p ∈ qs ++ [p] := List.mem_concat_self
  rw [hlines]
  exact line_of_last (hps p hp).2 (hne p hp)

theorem eq_at_end (hp : ¬P p.heading ∧ ∀ a ∈ p.below, P a)
    (hq : ¬P q.heading ∧ ∀ a ∈ q.below, P a)
    (h : r ++ p.heading :: p.below = s ++ q.heading :: q.below) : r = s ∧ p = q := by
  have hheading : ∀ {r : List α} {a : α}, ¬P a → ∀ b ∈ (r ++ [a]).getLast?, ¬P b := by simp
  rw [List.append_cons r, List.append_cons s] at h
  obtain ⟨habove, hbelow⟩ := Text.eq_of_ends hp.2 hq.2 (hheading hp.1) (hheading hq.1) h
  obtain ⟨hrs, hheading⟩ := List.append_inj' habove rfl
  exact ⟨hrs, Paragraph.ext (List.singleton_inj.1 hheading) hbelow⟩

theorem lines_injective_at_end (hps : TellsLines P ps) (hqs : TellsLines P qs)
    (hne : ∀ p ∈ ps, p.below ≠ []) (hne' : ∀ q ∈ qs, q.below ≠ [])
    (hr : ∀ a ∈ r.getLast?, ¬P a) (hs : ∀ a ∈ s.getLast?, ¬P a)
    (h : r ++ lines ps = s ++ lines qs) : r = s ∧ ps = qs := by
  exact Text.flatMap_injective_at_end
    (Q := fun p => (¬P p.heading ∧ ∀ a ∈ p.below, P a) ∧ p.below ≠ [])
    (fun p hp r => line_of_last hp.1.2 hp.2) (fun p q hp hq r s h => eq_at_end hp.1 hq.1 h)
    (fun p hp => ⟨hps p hp, hne p hp⟩) (fun q hq => ⟨hqs q hq, hne' q hq⟩) hr hs h

end Paragraph

end EpistemicPlanning
