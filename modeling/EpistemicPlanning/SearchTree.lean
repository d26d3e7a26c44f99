import EpistemicPlanning.Task.Description

/-!
# The search tree

A node is a state together with the way it was reached. Children come after their parent and
deeper nodes after shallower ones, so walking the nodes backwards visits children before parents.
The tree owns the arena in which the worlds of its nodes live.
-/
namespace EpistemicPlanning

/-- A state of the search and how it was reached. -/
structure Node where
  state : State
  /-- The node the state was reached from; the root has none. -/
  parent : Option NodeId
  /-- The number of actions since the root. -/
  depth : Nat
  /-- The action the state was reached by. -/
  action : Option ActionId
  /-- The nodes reached from here, in order. -/
  children : List NodeId
  /-- The worst cost over the designated worlds. -/
  cost : Cost
  deriving DecidableEq, Inhabited

/-- Whether a node is the root of its tree. -/
def Node.isRoot (n : Node) : Bool := n.parent.isNone

/-- What a planning run did. -/
structure PlanStats where
  /-- Rounds of growing the tree and computing costs. -/
  iterations : Nat := 0
  /-- The first depth at which the goal held somewhere. -/
  goalDepth : Option Nat := none
  /-- The bound on the depth of the tree in the end. -/
  cutoffDepth : Nat := 0
  nodes : Nat := 0
  worlds : Nat := 0
  prunedEdges : Nat := 0
  /-- Outcomes of dynamic events that were worked out. -/
  resolvedEvents : Nat := 0
  deriving DecidableEq, Repr, Inhabited

/-- A tree of states; the handle of a node is its position. -/
structure SearchTree where
  nodes : Array Node
  arena : Arena
  /-- The fingerprint of the task. -/
  fingerprint : Fingerprint
  stats : PlanStats
  deriving DecidableEq

namespace SearchTree

/-- The handle of the root. -/
def root : NodeId := ⟨0⟩

/-- The tree that holds the initial state of a task alone. -/
def ofTask (t : PlanningTask) : SearchTree where
  nodes := #[⟨t.initial, none, 0, none, [], .undefined⟩]
  arena := t.arena
  fingerprint := t.fingerprint
  stats := {}

/-- The number of nodes. -/
def size (t : SearchTree) : Nat := t.nodes.size

/-- Whether the tree has no node; it always has its root. -/
def isEmpty (t : SearchTree) : Bool := t.nodes.isEmpty

/-- The node with a given handle. -/
def node? (t : SearchTree) (n : NodeId) : Option Node := t.nodes[n.index]?

/-- The node with a handle that the tree has given out. -/
def node (t : SearchTree) (n : NodeId) : Node := (t.node? n).getD default

/-- The handles of the nodes in order. -/
def nodeIds (t : SearchTree) : List NodeId := (List.range t.size).map Handle.mk

/-- The tree with a child added to a node. -/
def addChild (t : SearchTree) (parent : NodeId) (action : ActionId) (state : State) :
    SearchTree :=
  let child : Node := ⟨state, some parent, (t.node parent).depth + 1, some action, [], .undefined⟩
  let id : NodeId := ⟨t.size⟩
  { t with
    nodes := (t.nodes.push child).modify parent.index fun n =>
      { n with children := n.children ++ [id] } }

/-- The depth of the last node, which is the greatest. -/
def maxDepth (t : SearchTree) : Nat := (t.nodes.back?.map Node.depth).getD 0

/-- The child that an action leads to. -/
def child? (t : SearchTree) (n : NodeId) (a : ActionId) : Option NodeId :=
  (t.node? n).bind fun node => node.children.find? fun c => (t.node c).action = some a

/-- The child that an action leads to, or the failure to find it. -/
def expectChild (t : SearchTree) (n : NodeId) (a : ActionId) : Except ModelError NodeId :=
  match t.child? n a with
  | some c => .ok c
  | none => .error (.missingChild n a)

/-- The designated worlds of a node. -/
def designated (t : SearchTree) (n : NodeId) : List WorldId :=
  match t.node? n with
  | some node => node.state.designated.toList
  | none => []

/-- The designated worlds of a node that are not pruned. -/
def liveDesignated (t : SearchTree) (n : NodeId) : List WorldId :=
  (t.designated n).filter fun w => !(t.arena.world w).pruned

/-- The steps that are left to the designated worlds of a node. -/
def unprunedEdges (t : SearchTree) (n : NodeId) : List EdgeId :=
  ((t.liveDesignated n).flatMap fun w => (t.arena.world w).outgoing).filter fun e =>
    !(t.arena.edge e).pruned

/-- The greatest cost over the designated worlds of a node. -/
def designatedCost (t : SearchTree) (n : NodeId) : Cost :=
  ((t.designated n).map fun w => (t.arena.world w).cost).max?.getD .undefined

end SearchTree

end EpistemicPlanning
