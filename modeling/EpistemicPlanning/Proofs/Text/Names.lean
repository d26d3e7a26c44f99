import EpistemicPlanning.Accessibility.Link
import EpistemicPlanning.Predicate
import EpistemicPlanning.Proofs.Arena
import EpistemicPlanning.Proofs.Text.Paragraphs

/-!
# What texts tell

The texts of handles of one kind tell the handles apart, and the texts of links the links. The text
of a ground predicate tells its name from its arguments as long as these keep clear of the
punctuation between them (`GroundAtom.text_injective`).
-/
namespace EpistemicPlanning

variable {kind : HandleKind}

/-! ### Handles and links -/

namespace Handle

variable {h h' : Handle kind}

theorem toList_text : h.text.toList = kind.mark.toList ++ Nat.toDigits 10 h.index := by
  rw [text, String.toList_append, Nat.toString_eq_ofList_toDigits, String.toList_ofList]

theorem text_injective (heq : h.text = h'.text) : h = h' := by
  have hlist := congrArg String.toList heq
  rw [toList_text, toList_text] at hlist
  have hdigits := List.append_cancel_left hlist
  have hindex : h.index = h'.index := calc
    h.index = Nat.ofDigitChars 10 (Nat.toDigits 10 h.index) 0 :=
      Nat.ofDigitChars_ten_toDigits.symm
    _ = Nat.ofDigitChars 10 (Nat.toDigits 10 h'.index) 0 := by rw [hdigits]
    _ = h'.index := Nat.ofDigitChars_ten_toDigits
  exact index_injective hindex

theorem tilde_not_mem_text : '~' ∉ h.text.toList := by
  rw [toList_text, List.mem_append]
  rintro (hmark | hdigit)
  · cases kind <;> exact absurd hmark (by decide)
  · exact absurd (Nat.isDigit_of_mem_toDigits (by decide) (by decide) hdigit) (by decide)

end Handle

namespace Link

variable {l l' : Link kind}

/-- A link as it is shown. -/
def text (l : Link kind) : String := l.low.text ++ "~" ++ l.high.text

theorem toList_text : l.text.toList = l.low.text.toList ++ '~' :: l.high.text.toList := by
  rw [text, String.toList_append, String.toList_append, List.append_assoc]
  rfl

theorem tilde_mem_text : '~' ∈ l.text.toList := by
  rw [toList_text]
  exact List.mem_append_right _ List.mem_cons_self

theorem text_injective (heq : l.text = l'.text) : l = l' := by
  have hlist := congrArg String.toList heq
  have hclear : ∀ {h : Handle kind}, ∀ c ∈ h.text.toList, c ≠ '~' := fun c hc htilde =>
    Handle.tilde_not_mem_text (htilde ▸ hc)
  rw [toList_text, toList_text] at hlist
  obtain ⟨hlow, hrest⟩ := Text.eq_of_begins hclear hclear (by simp) (by simp) hlist
  have hhigh := (List.cons.inj hrest).2
  obtain ⟨low, high, _⟩ := l
  obtain ⟨low', high', _⟩ := l'
  obtain rfl := Handle.text_injective (String.toList_inj.1 hlow)
  obtain rfl := Handle.text_injective (String.toList_inj.1 hhigh)
  rfl

end Link

/-! ### Ground predicates -/

namespace Text

variable {x y r s : List Char} {xs ys : List (List Char)}

/-- There is no comma followed by a blank. -/
def Unseparated (x : List Char) : Prop := ¬[',', ' '] <:+: x

theorem Unseparated.eq_nil (hx : Unseparated x) (h : ',' :: ' ' :: r = x ++ ',' :: ' ' :: s) :
    x = [] := by
  match x with
  | [] => rfl
  | [a] => cases h
  | a :: b :: x =>
    cases h
    exact absurd ⟨[], x, rfl⟩ hx

theorem Unseparated.tail {a : Char} (hx : Unseparated (a :: x)) : Unseparated x :=
  fun h => hx (h.trans (List.suffix_cons a x).isInfix)

/-- A list is cut at its first separator in one way only. -/
theorem eq_of_separated (hx : Unseparated x) (hy : Unseparated y)
    (h : x ++ ',' :: ' ' :: r = y ++ ',' :: ' ' :: s) : x = y ∧ r = s := by
  induction x generalizing y with
  | nil =>
    obtain rfl := hy.eq_nil h
    cases h
    exact ⟨rfl, rfl⟩
  | cons a x ih =>
    cases y with
    | nil => exact absurd (hx.eq_nil h.symm) (List.cons_ne_nil _ _)
    | cons b y =>
      obtain ⟨rfl, hrest⟩ := List.cons.inj h
      obtain ⟨rfl, hrs⟩ := ih hx.tail hy.tail hrest
      exact ⟨rfl, hrs⟩

theorem intercalate_injective (hxs : ∀ x ∈ xs, Unseparated x) (hys : ∀ y ∈ ys, Unseparated y)
    (hne : xs ≠ []) (hne' : ys ≠ [])
    (h : [',', ' '].intercalate xs = [',', ' '].intercalate ys) : xs = ys := by
  have hlonger : ∀ {x y : List Char} {ys : List (List Char)}, ys ≠ [] → Unseparated x →
      x ≠ [',', ' '].intercalate (y :: ys) := by
    intro x y ys hys hx heq
    rw [List.intercalate_cons_of_ne_nil hys, List.append_assoc] at heq
    exact hx ⟨y, _, (List.append_assoc _ _ _).trans heq.symm⟩
  induction xs generalizing ys with
  | nil => exact absurd rfl hne
  | cons x xs ih =>
    cases ys with
    | nil => exact absurd rfl hne'
    | cons y ys =>
      obtain ⟨hx, hxs'⟩ := List.forall_mem_cons.1 hxs
      obtain ⟨hy, hys'⟩ := List.forall_mem_cons.1 hys
      by_cases hxnil : xs = []
      · subst hxnil
        rw [List.intercalate_singleton] at h
        by_cases hynil : ys = []
        · rw [hynil, List.intercalate_singleton] at h
          rw [h, hynil]
        · exact absurd h (hlonger hynil hx)
      · by_cases hynil : ys = []
        · rw [hynil, List.intercalate_singleton] at h
          exact absurd h.symm (hlonger hxnil hy)
        · rw [List.intercalate_cons_of_ne_nil hxnil, List.intercalate_cons_of_ne_nil hynil,
            List.append_assoc, List.append_assoc] at h
          obtain ⟨rfl, hrest⟩ := eq_of_separated hx hy h
          rw [ih hxs' hys' hxnil hynil hrest]

end Text

namespace GroundAtom

/-- The name does not open a list of arguments, and no argument ends before its end. -/
structure Legible (a : GroundAtom) : Prop where
  name : '(' ∉ a.name.toList
  arguments : ∀ s ∈ a.arguments, Text.Unseparated s.toList

variable {a b : GroundAtom}

theorem toList_text_of_arguments (h : a.arguments ≠ []) : a.text.toList =
    a.name.toList ++ '(' :: ([',', ' '].intercalate (a.arguments.map String.toList) ++ [')']) := by
  rw [text, if_neg (by simpa using h)]
  simp only [String.toList_append, String.toList_intercalate, List.append_assoc]
  rfl

theorem text_of_no_arguments (h : a.arguments = []) : a.text = a.name := by
  rw [text, h, List.isEmpty_nil, if_pos rfl]

theorem Legible.arguments_ne_nil (ha : a.Legible) (hb : b.arguments ≠ [])
    (h : a.text = b.text) : a.arguments ≠ [] := by
  intro hnil
  refine ha.name ?_
  rw [← text_of_no_arguments hnil, h, toList_text_of_arguments hb]
  exact List.mem_append_right _ List.mem_cons_self

theorem Legible.ne_bracket (ha : a.Legible) : ∀ c ∈ a.name.toList, '(' ≠ c :=
  fun _ hc heq => ha.name (heq ▸ hc)

theorem Legible.unseparated (ha : a.Legible) :
    ∀ x ∈ a.arguments.map String.toList, Text.Unseparated x :=
  List.forall_mem_map.2 ha.arguments

theorem text_injective (ha : a.Legible) (hb : b.Legible) (h : a.text = b.text) : a = b := by
  have hparts : a.name = b.name ∧ a.arguments = b.arguments := by
    by_cases hnil : b.arguments = []
    · have hnil' : a.arguments = [] := by
        by_contra hne
        exact hb.arguments_ne_nil hne h.symm hnil
      rw [text_of_no_arguments hnil', text_of_no_arguments hnil] at h
      exact ⟨h, hnil'.trans hnil.symm⟩
    · have hne := ha.arguments_ne_nil hnil h
      have hlist := congrArg String.toList h
      rw [toList_text_of_arguments hne, toList_text_of_arguments hnil] at hlist
      obtain ⟨hname, hrest⟩ :=
        Text.eq_of_begins ha.ne_bracket hb.ne_bracket (by simp) (by simp) hlist
      have hjoined := List.append_cancel_right (List.cons.inj hrest).2
      have harguments := Text.intercalate_injective ha.unseparated hb.unseparated (by simpa)
        (by simpa) hjoined
      exact ⟨String.toList_inj.1 hname,
        List.map_injective_iff.2 (fun _ _ => String.toList_inj.1) harguments⟩
  obtain ⟨name, arguments⟩ := a
  obtain ⟨rfl, rfl⟩ := hparts
  rfl

end GroundAtom

end EpistemicPlanning
