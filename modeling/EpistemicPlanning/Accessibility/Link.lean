import EpistemicPlanning.Handle

/-!
# Links

A link joins two nodes that somebody cannot tell apart. It has no direction, so it is stored with
its lower end first.
-/
namespace EpistemicPlanning

/-- An unordered pair of nodes. -/
structure Link (kind : HandleKind) where
  low : Handle kind
  high : Handle kind
  ordered : low.index ≤ high.index
  deriving DecidableEq

namespace Link

variable {kind : HandleKind}

/-- Links are ordered by their lower end, then by their upper end. -/
instance : Ord (Link kind) := ⟨compareLex (compareOn low) (compareOn high)⟩

instance : Std.TransOrd (Link kind) :=
  inferInstanceAs (Std.TransCmp
    (compareLex (compareOn fun l : Link kind => l.low) (compareOn fun l : Link kind => l.high)))

instance : Std.LawfulEqOrd (Link kind) where
  compare_self {a} := compareLex_eq_eq.2
    ⟨Std.ReflOrd.compare_self, Std.ReflOrd.compare_self⟩
  eq_of_compare {a b} h := by
    obtain ⟨hl, hh⟩ := compareLex_eq_eq.1 h
    cases a
    cases b
    cases Std.LawfulEqOrd.eq_of_compare hl
    cases Std.LawfulEqOrd.eq_of_compare hh
    rfl

/-- The link between two nodes. -/
def of (a b : Handle kind) : Link kind :=
  if h : a.index ≤ b.index then ⟨a, b, h⟩ else ⟨b, a, Nat.le_of_lt (Nat.lt_of_not_le h)⟩

/-- The link from a node to itself. -/
def loop (a : Handle kind) : Link kind := ⟨a, a, Nat.le_refl _⟩

/-- Whether both ends are the same node. -/
def isLoop (l : Link kind) : Bool := l.low = l.high

theorem of_comm (a b : Handle kind) : of a b = of b a := by
  cases a with
  | mk i =>
    cases b with
    | mk j =>
      unfold of
      by_cases h : i ≤ j <;> by_cases h' : j ≤ i <;> simp [h, h'] <;> omega

@[simp] theorem of_self (a : Handle kind) : of a a = loop a := by simp [of, loop]

end Link

end EpistemicPlanning
