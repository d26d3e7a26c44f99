import EpistemicPlanning.Text.Blank

/-!
# Agents

An agent is its name: two agents with one name are the same agent wherever they appear.
-/
namespace EpistemicPlanning

/-- Someone who acts or observes. -/
structure Agent where
  name : String
  deriving DecidableEq, Repr, Inhabited

namespace Agent

/-- Agents are ordered by name. -/
instance : Ord Agent := ⟨compareOn name⟩

instance : Std.TransOrd Agent := inferInstanceAs (Std.TransCmp (compareOn name))

instance : Std.LawfulEqOrd Agent where
  compare_self := Std.ReflOrd.compare_self
  eq_of_compare {a b} h := by
    cases a
    cases b
    exact congrArg Agent.mk (Std.LawfulEqOrd.eq_of_compare h)

/-- Whether the name holds no visible character, so that it names nobody. -/
def isBlank (a : Agent) : Bool := Text.isBlank a.name

end Agent

end EpistemicPlanning
