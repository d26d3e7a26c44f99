import EpistemicPlanning.Error

/-!
# Configuration

The bounds on a search and the settings of a policy run. All bounds of a search have to be
positive.
-/
namespace EpistemicPlanning

/-- Bounds on a search. -/
structure PlannerConfig where
  /-- The deepest level of the tree. -/
  maxDepth : Nat := 12
  /-- The number of rounds of growing the tree and computing costs. -/
  maxIterations : Nat := 32
  /-- The number of nodes, the root included. -/
  maxNodes : Nat := 100000
  deriving DecidableEq, Repr

/-- The first bound that is zero. -/
def PlannerConfig.zeroBound? (c : PlannerConfig) : Option SearchBound :=
  if c.maxDepth = 0 then some .maxDepth
  else if c.maxIterations = 0 then some .maxIterations
  else if c.maxNodes = 0 then some .maxNodes
  else none

/-- The configuration itself, refused when a bound is zero. -/
def PlannerConfig.checked (c : PlannerConfig) : Except ValidationError PlannerConfig :=
  match c.zeroBound? with
  | some bound => .error (.zeroBound bound)
  | none => .ok c

/-- Settings of a policy run. -/
structure ExecutorConfig where
  /-- The seed of the random choices. -/
  seed : UInt64 := 0
  /-- The number of steps after which a run ends. -/
  maxSteps : Nat := 1024
  deriving DecidableEq, Repr

end EpistemicPlanning
