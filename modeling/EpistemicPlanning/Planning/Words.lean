import EpistemicPlanning.Planning.Deepening
import EpistemicPlanning.Update.Steps

/-!
# Planning with handles that run out

`Planner.run` plans as if handles never ran out. `Planner.runInWords` makes the same plan with
handles that are words of 32 bits: product updates are made step by step in an arena whose last
worlds share one handle, and a tree that has used up the handles of nodes gets no more children.
-/
namespace EpistemicPlanning

namespace Planning

variable {t : PlanningTask}

/-- A product update in the arena of the tree, made step by step. -/
def updateInSteps (state : State) (a : ActionId) : Planning t (Option State) :=
  ExceptT.mk do
    let run ← get
    let (next, arena) ← liftM (Update.applyInSteps (t := t) run.tree.arena state a)
    set { run with tree := { run.tree with arena } }
    return next

/-- Adds a child to a node, if there is a handle left for it. -/
def addChildInWords (n : NodeId) (a : ActionId) (next : State) : Planning t Unit := do
  let run ← get
  if UInt32.size ≤ run.tree.size then throw (.planning (.tooManyNodeIds run.tree.size))
  set { run with tree := run.tree.addChild n a next }

/-- Makes a node of the state that an action leads to, if there is one. -/
def adoptInWords (n : NodeId) (seen : State) (a : ActionId) (depth : Nat) :
    Planning t Unit := do
  match ← updateInSteps seen a with
  | none => return
  | some next =>
    watchGoal next depth
    addChildInWords n a next

/-- Adds all children of a node. -/
def expandInWords (c : PlannerConfig) (n : NodeId) : Planning t Unit :=
  t.numbered.forM fun (action, a) => tryActionBy adoptInWords c n action a

/-- The pruned tree. -/
def treeInWords (c : PlannerConfig) : Planning t SearchTree := do
  deepenBy c (growBy (expandInWords c)) c.maxIterations
  conclude

end Planning

namespace Planner

/-- Makes a plan for a task with handles that are words. -/
def runInWords (p : Planner) (t : PlanningTask) : PlanOutcome :=
  outcomeOf (t := t) p.config (Planning.treeInWords p.config)

/-- The plan for a task when handles are words. -/
def planInWords (p : Planner) (t : PlanningTask) : Except PlanError SearchTree :=
  (p.runInWords t).result

end Planner

end EpistemicPlanning
