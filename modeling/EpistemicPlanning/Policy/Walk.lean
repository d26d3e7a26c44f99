import EpistemicPlanning.Config
import EpistemicPlanning.Policy.Choice
import EpistemicPlanning.SearchTree

/-!
# Running a policy

Agents act independently: at each node one of the steps that are left to its live designated
worlds is chosen, and the walk goes on to the child that the step's action leads to. It ends where
no step is left, or after a given number of steps. The goal counts as reached when it holds at
every live designated world of the last node, and there is one.
-/
namespace EpistemicPlanning

/-- The outcome of one run. -/
structure ExecutionReport where
  /-- The names of the actions taken. -/
  actions : List String
  goalReached : Bool
  steps : Nat
  /-- The live designated worlds of the last node. -/
  finalWorlds : List WorldId
  deriving DecidableEq, Repr

/-- A plan, together with a task of the same fingerprint that it is run on. -/
structure Policy where
  tree : SearchTree
  task : PlanningTask

namespace Policy

/-- Binds a plan to a task, unless it was made for one with another fingerprint. -/
def ofTask (tree : SearchTree) (task : PlanningTask) : Except ValidationError Policy :=
  if tree.fingerprint = task.fingerprint then .ok ⟨tree, task⟩
  else .error (.taskMismatch tree.fingerprint task.fingerprint)

/-- The name of an action, or its handle where the task does not have it. -/
def actionName (p : Policy) (a : ActionId) : String :=
  match p.task.action? a with
  | some action => action.name
  | none => a.text

/-- A source of choices: one of `n` things, and the source afterwards. -/
abbrev Chooser (σ : Type) := (n : Nat) → 0 < n → σ → Fin n × σ

/-- Chooses one item of a list; from an empty list, nothing is chosen. -/
def choose {σ α : Type} (pick : Chooser σ) (l : List α) (s : σ) : Option α × σ :=
  if h : 0 < l.length then
    let (i, s) := pick l.length h s
    (some l[i], s)
  else (none, s)

/-- A walk of at most `steps` steps from a node: the actions taken, the last node, and the source
of choices afterwards. -/
def walk {σ : Type} (p : Policy) (pick : Chooser σ) :
    (steps : Nat) → NodeId → σ → Except ModelError (List ActionId × NodeId × σ)
  | 0, n, s => .ok ([], n, s)
  | steps + 1, n, s =>
    match choose pick (p.tree.unprunedEdges n) s with
    | (none, s) => .ok ([], n, s)
    | (some e, s) => do
      let action := (p.tree.arena.edge e).action
      let next ← p.tree.expectChild n action
      let (actions, last, s) ← p.walk pick steps next s
      return (action :: actions, last, s)

/-- Whether the goal holds at every live designated world of a node, and there is one. -/
def goalReached (p : Policy) (n : NodeId) : Except ModelError Bool :=
  let worlds := p.tree.liveDesignated n
  if worlds.isEmpty then .ok false
  else worlds.allM (p.task.goal.evaluate p.tree.arena (p.tree.node n).state)

/-- Runs a policy once, with choices from a given source. -/
def runWith {σ : Type} (p : Policy) (pick : Chooser σ) (maxSteps : Nat) (s : σ) :
    Except ModelError ExecutionReport := do
  let (actions, last, _) ← p.walk pick maxSteps SearchTree.root s
  let goalReached ← p.goalReached last
  return ⟨actions.map p.actionName, goalReached, actions.length, p.tree.liveDesignated last⟩

/-- Runs a policy once, with the choices that a seed makes. -/
def runSeed (p : Policy) (maxSteps : Nat) (seed : UInt64) : Except ModelError ExecutionReport :=
  p.runWith Choice.pick maxSteps (.ofSeed seed)

/-- Runs a policy once, as configured. -/
def run (p : Policy) (c : ExecutorConfig) : Except ModelError ExecutionReport :=
  p.runSeed c.maxSteps c.seed

/-- Runs a policy `n` times, with consecutive seeds from the configured one on. -/
def runMany (p : Policy) (c : ExecutorConfig) (n : Nat) :
    Except ModelError (List ExecutionReport) :=
  (List.range n).mapM fun i => p.runSeed c.maxSteps (c.seed + i.toUInt64)

end Policy

end EpistemicPlanning
