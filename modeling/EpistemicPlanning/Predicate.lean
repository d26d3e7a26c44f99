import EpistemicPlanning.Handle

/-!
# Ground predicates

An atomic fact such as `at(p2)` is identified by its name and its arguments. A predicate is such a
fact together with the handle that selects its truth value in a valuation; the handle has no part
in its identity.
-/
namespace EpistemicPlanning

/-- An atomic fact: a name and ordered arguments. -/
structure GroundAtom where
  name : String
  arguments : List String
  deriving DecidableEq, Repr, Inhabited

namespace GroundAtom

/-- Atoms are ordered by name, then by arguments. -/
instance : Ord GroundAtom := ⟨compareLex (compareOn name) (compareOn arguments)⟩

instance : Std.TransOrd GroundAtom :=
  inferInstanceAs (Std.TransCmp (compareLex (compareOn name) (compareOn arguments)))

instance : Std.LawfulEqOrd GroundAtom where
  compare_self {a} := compareLex_eq_eq.2
    ⟨Std.ReflOrd.compare_self, Std.ReflOrd.compare_self⟩
  eq_of_compare {a b} h := by
    obtain ⟨hn, ha⟩ := compareLex_eq_eq.1 h
    cases a
    cases b
    cases Std.LawfulEqOrd.eq_of_compare hn
    cases Std.LawfulEqOrd.eq_of_compare ha
    rfl

/-- An atom as it is shown: `name`, or `name(a, b)` when it has arguments. -/
def text (a : GroundAtom) : String :=
  if a.arguments.isEmpty then a.name
  else a.name ++ "(" ++ ", ".intercalate a.arguments ++ ")"

end GroundAtom

/-- An atomic fact and the handle of its truth value. -/
structure Predicate where
  id : PredicateId
  atom : GroundAtom
  deriving DecidableEq, Repr, Inhabited

/-- Whether two predicates state the same fact, whatever their handles. -/
def Predicate.same (p q : Predicate) : Bool := p.atom = q.atom

/-- A predicate as it is shown. -/
def Predicate.text (p : Predicate) : String := p.atom.text

end EpistemicPlanning
