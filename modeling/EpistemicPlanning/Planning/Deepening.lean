import EpistemicPlanning.Planning.Induction
import EpistemicPlanning.Planning.Rationality

/-!
# Planning by deepening

A plan is made in rounds. Each round grows the tree down to the present bound and computes the
costs; as long as a world of the root has a provisional cost, the bound is raised by one. At last
the irrational steps are pruned.
-/
namespace EpistemicPlanning

/-- Where a planning run is. -/
inductive PlannerPhase where
  /-- The tree is being grown. -/
  | expanding
  /-- Costs are being computed. -/
  | costingPending
  /-- Costs are known and irrational steps are pruned. -/
  | pruned
  deriving DecidableEq, Repr

namespace Run

/-- The costs of the given worlds of the root. -/
def rootCosts (r : Run) (worlds : State → List WorldId) : List Cost :=
  (worlds (r.tree.node SearchTree.root).state).map fun w => (r.tree.arena.world w).cost

/-- Whether the cost of every world of the root is known. -/
def rootSettled (r : Run) : Bool := (r.rootCosts (·.possible)).all Cost.isSettled

/-- Whether the goal cannot be reached from any designated world of the root. -/
def rootHopeless (r : Run) : Bool := (r.rootCosts (·.designated.toList)).all (· = .infinity)

/-- The run with a failure at its present bound. -/
def unsolvable (r : Run) (reason : Unsolvable) : PlanError :=
  .planning (.unsolvable r.limit reason)

end Run

namespace Planning

variable {t : PlanningTask}

/-- At most the given number of rounds, until the costs of the root are known. How the tree is grown
is a parameter. -/
def deepenBy (c : PlannerConfig) (grow : Planning t Unit) : Nat → Planning t Unit
  | 0 => do
    modify fun run => { run with iterations := run.iterations + 1 }
    throw ((← get).unsolvable .iterationsExhausted)
  | rounds + 1 => do
    modify fun run => { run with iterations := run.iterations + 1 }
    grow
    settle
    let run ← get
    if run.rootSettled then return
    if run.frontier.isEmpty then throw (run.unsolvable .provisionalWithoutFrontier)
    if c.maxDepth ≤ run.limit then throw (run.unsolvable .provisionalAtDepthBound)
    set { run with limit := run.limit + 1 }
    deepenBy c grow rounds

/-- At most the given number of rounds, until the costs of the root are known. -/
def deepen (c : PlannerConfig) : Nat → Planning t Unit := deepenBy c (grow c)

theorem deepen_zero (c : PlannerConfig) :
    deepen (t := t) c 0 =
      (do modify fun run => { run with iterations := run.iterations + 1 }
          throw ((← get).unsolvable .iterationsExhausted)) := rfl

/-- What is done once the costs of the root are known: the irrational steps are pruned. The
statistics leave out the resolved events. -/
def conclude : Planning t SearchTree := do
  let run ← get
  if run.rootHopeless then throw (run.unsolvable .goalUnreachable)
  let (pruned, prunedEdges) ← ofExcept (Rationality.prune run.tree)
  return { pruned with
    stats :=
      { iterations := run.iterations
        goalDepth := run.goalDepth
        cutoffDepth := run.limit
        nodes := pruned.size
        worlds := pruned.arena.worlds.size
        prunedEdges
        resolvedEvents := 0 } }

/-- The pruned tree. -/
def tree (c : PlannerConfig) : Planning t SearchTree := do
  deepen c c.maxIterations
  conclude

end Planning

/-- What a planning run ends with, and how many outcomes of dynamic events it worked out. -/
structure PlanOutcome where
  result : Except PlanError SearchTree
  resolved : Nat

/-- A planner whose bounds are positive. -/
structure Planner where
  config : PlannerConfig
  positive : config.zeroBound? = none

namespace Planner

/-- The planner with given bounds, refused when one is zero. -/
def ofConfig (c : PlannerConfig) : Except ValidationError Planner :=
  match h : c.zeroBound? with
  | some bound => .error (.zeroBound bound)
  | none => .ok ⟨c, h⟩

/-- What the making of a plan ends with. -/
def outcomeOf {t : PlanningTask} (c : PlannerConfig) (steps : Planning t SearchTree) :
    PlanOutcome :=
  let ((result, _), memo) := (steps.run.run (.initial t c)).run ∅
  { result := result.map fun tree =>
      { tree with stats := { tree.stats with resolvedEvents := memo.size } }
    resolved := memo.size }

/-- Makes a plan for a task. -/
def run (p : Planner) (t : PlanningTask) : PlanOutcome :=
  outcomeOf (t := t) p.config (Planning.tree p.config)

/-- The plan for a task: its search tree with the irrational steps pruned. -/
def plan (p : Planner) (t : PlanningTask) : Except PlanError SearchTree := (p.run t).result

end Planner

end EpistemicPlanning
