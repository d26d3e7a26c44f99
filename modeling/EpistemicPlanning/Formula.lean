import EpistemicPlanning.Agent
import EpistemicPlanning.Ordered.Set
import EpistemicPlanning.Predicate

/-!
# Formulas

Formulas of epistemic logic: predicates, the propositional connectives, and what an agent knows.
-/
namespace EpistemicPlanning

/-- A formula of epistemic logic. -/
inductive Formula where
  | top
  | bottom
  | atom (predicate : Predicate)
  | not (f : Formula)
  | and (f g : Formula)
  | or (f g : Formula)
  | implies (f g : Formula)
  /-- All formulas of a list hold; of no formulas, they do. -/
  | all (fs : List Formula)
  /-- Some formula of a list holds; of no formulas, none does. -/
  | any (fs : List Formula)
  /-- The agent knows the formula. -/
  | knows (agent : Agent) (f : Formula)
  deriving Inhabited

namespace Formula

/-! ### Text -/

mutual

/-- A formula as it is shown. -/
def text : Formula → String
  | top => "true"
  | bottom => "false"
  | atom p => p.text
  | not f => "!" ++ f.text
  | and f g => "(" ++ f.text ++ " & " ++ g.text ++ ")"
  | or f g => "(" ++ f.text ++ " | " ++ g.text ++ ")"
  | implies f g => "(" ++ f.text ++ " -> " ++ g.text ++ ")"
  | all [] => "true"
  | all (f :: fs) => "(" ++ f.text ++ textAfter " & " fs ++ ")"
  | any [] => "false"
  | any (f :: fs) => "(" ++ f.text ++ textAfter " | " fs ++ ")"
  | knows a f => "K[" ++ a.name ++ "]" ++ f.text

/-- The further operands of a connective over a list, each after the connective. -/
def textAfter (connective : String) : List Formula → String
  | [] => ""
  | f :: fs => connective ++ f.text ++ textAfter connective fs

end

/-! ### Agents -/

mutual

/-- The agents whose knowledge a formula speaks of. -/
def agents : Formula → SortedSet Agent
  | top | bottom | atom _ => ∅
  | not f => f.agents
  | and f g | or f g | implies f g => f.agents ∪ g.agents
  | all fs | any fs => agentsOfList fs
  | knows a f => f.agents.insert a

/-- The agents whose knowledge some formula of a list speaks of. -/
def agentsOfList : List Formula → SortedSet Agent
  | [] => ∅
  | f :: fs => f.agents ∪ agentsOfList fs

end

/-! ### Structure -/

mutual

/-- Whether two formulas are built alike from predicates that state the same facts. -/
def same : Formula → Formula → Bool
  | top, top => true
  | bottom, bottom => true
  | atom p, atom q => p.same q
  | not f, not g => f.same g
  | and f g, and f' g' => f.same f' && g.same g'
  | or f g, or f' g' => f.same f' && g.same g'
  | implies f g, implies f' g' => f.same f' && g.same g'
  | all fs, all gs => sameList fs gs
  | any fs, any gs => sameList fs gs
  | knows a f, knows b g => a = b && f.same g
  | _, _ => false

/-- Whether two lists hold formulas built alike, in the same order. -/
def sameList : List Formula → List Formula → Bool
  | [], [] => true
  | f :: fs, g :: gs => f.same g && sameList fs gs
  | _, _ => false

end

end Formula

end EpistemicPlanning
