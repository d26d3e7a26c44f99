import EpistemicPlanning.Config
import EpistemicPlanning.SearchTree
import EpistemicPlanning.Update.Product

/-!
# Growing the search tree

The tree is grown level by level. A node gets a child for each action that its owner may take,
which is judged in the owner's perspective; the child is the product update of that perspective.
The first child with a goal world bounds the depth of the tree by its own depth.
-/
namespace EpistemicPlanning

/-- A planning run between two steps. -/
structure Run where
  tree : SearchTree
  /-- The nodes that have not been expanded: the deepest level of the tree. -/
  frontier : List NodeId
  /-- The first depth at which the goal held somewhere. -/
  goalDepth : Option Nat
  /-- The present bound on the depth of the tree. -/
  limit : Nat
  /-- The number of rounds begun. -/
  iterations : Nat

/-- A step of a planning run. What the run has done is kept when the step fails. -/
abbrev Planning (t : PlanningTask) (α : Type) :=
  ExceptT PlanError (StateT Run (Consult t.outcome)) α

namespace Run

/-- The run that has the initial state alone, to be expanded. -/
def initial (t : PlanningTask) (c : PlannerConfig) : Run :=
  ⟨.ofTask t, [SearchTree.root], none, c.maxDepth, 0⟩

/-- The run once the goal has been found at some depth. -/
def noteGoal (r : Run) (depth : Nat) : Run :=
  { r with goalDepth := some depth, limit := min r.limit depth }

/-- Whether a node is at the bound on the depth. -/
def isLeaf (r : Run) (n : Node) : Bool := n.depth = r.limit

/-- Whether the frontier is above the bound on the depth, so that it has to be expanded. -/
def mayGrow (r : Run) : Bool :=
  match r.frontier with
  | [] => false
  | n :: _ => (r.tree.node n).depth < r.limit

end Run

namespace Planning

variable {t : PlanningTask}

/-- A lookup as a step. -/
def ofExcept {α : Type} (x : Except ModelError α) : Planning t α :=
  ExceptT.mk (pure (x.mapError .model))

/-- A query about events as a step. -/
def ofUpdating {α : Type} (x : Updating t α) : Planning t α :=
  ExceptT.mk do return (← liftM x.run).mapError .model

/-- A product update in the arena of the tree. -/
def update (state : State) (a : ActionId) : Planning t (Option State) :=
  ExceptT.mk do
    let run ← get
    let (next, arena) ← liftM (Update.apply (t := t) run.tree.arena state a)
    set { run with tree := { run.tree with arena } }
    return next.mapError .model

/-- Takes notice of the first state in which the goal holds somewhere. -/
def watchGoal (next : State) (depth : Nat) : Planning t Unit := do
  let run ← get
  if run.goalDepth.isNone then
    let reached ← ofExcept (next.worldsSatisfying run.tree.arena t.goal)
    unless reached.isEmpty do set (run.noteGoal depth)

/-- Makes a node of the state that an action leads to, if there is one. -/
def adopt (n : NodeId) (seen : State) (a : ActionId) (depth : Nat) : Planning t Unit := do
  match ← update seen a with
  | none => return
  | some next =>
    watchGoal next depth
    modify fun run => { run with tree := run.tree.addChild n a next }

/-- Adds the child of a node for one action, if the owner may take the action. How the node is made
is a parameter. -/
def tryActionBy (adopt : NodeId → State → ActionId → Nat → Planning t Unit) (c : PlannerConfig)
    (n : NodeId) (action : Action) (a : ActionId) : Planning t Unit := do
  let run ← get
  let node := run.tree.node n
  let shifted ← ofExcept (node.state.perspective action.owner)
  if ← ofUpdating (Updating.isApplicable run.tree.arena shifted a) then
    if c.maxNodes ≤ run.tree.size then
      throw (.planning (.tooManyNodes c.maxNodes (run.tree.size + 1)))
    adopt n shifted a (node.depth + 1)

/-- Adds the child of a node for one action, if the owner may take the action. -/
def tryAction (c : PlannerConfig) (n : NodeId) (action : Action) (a : ActionId) :
    Planning t Unit := tryActionBy adopt c n action a

/-- Adds all children of a node. -/
def expand (c : PlannerConfig) (n : NodeId) : Planning t Unit :=
  t.numbered.forM fun (action, a) => tryAction c n action a

/-! ### Levels

How a node is expanded is a parameter of the loops over the nodes. -/

/-- Expands the frontier, whose place the new nodes take. -/
def growLevelBy (expand : NodeId → Planning t Unit) : Planning t Unit := do
  let run ← get
  run.frontier.forM expand
  modify fun after =>
    let added := List.range' run.tree.size (after.tree.size - run.tree.size)
    { after with frontier := added.map Handle.mk }

/-- Expands at most the given number of levels, until the frontier is at the bound on the depth. -/
def growLevelsBy (expand : NodeId → Planning t Unit) : Nat → Planning t Unit
  | 0 => return
  | levels + 1 => do
    if (← get).mayGrow then
      growLevelBy expand
      growLevelsBy expand levels

/-- Grows the tree down to the bound on its depth. -/
def growBy (expand : NodeId → Planning t Unit) : Planning t Unit := do
  growLevelsBy expand (← get).limit

/-- Expands the frontier. -/
def growLevel (c : PlannerConfig) : Planning t Unit := growLevelBy (expand c)

/-- Expands at most the given number of levels. -/
def growLevels (c : PlannerConfig) : Nat → Planning t Unit := growLevelsBy (expand c)

/-- Grows the tree down to the bound on its depth. -/
def grow (c : PlannerConfig) : Planning t Unit := growBy (expand c)

theorem growLevels_succ (c : PlannerConfig) (levels : Nat) :
    growLevels (t := t) c (levels + 1) =
      (do if (← get).mayGrow then
            growLevel c
            growLevels c levels) := rfl

theorem grow_eq (c : PlannerConfig) :
    grow (t := t) c = (do growLevels c (← get).limit) := rfl

end Planning

end EpistemicPlanning
