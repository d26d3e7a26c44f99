import EpistemicPlanning.Planning.Growth

/-!
# Backward induction

Costs are computed from the deepest nodes upwards. A world at which the goal holds costs nothing; a
world at which no event can happen is infinitely far from the goal; any other world of a leaf is
provisionally one step away; and the rest take the best of their steps. A step costs one more than
the world it leads to.
-/
namespace EpistemicPlanning

/-- What decides the cost of a world besides its steps. -/
inductive Standing where
  /-- The goal holds. -/
  | goal
  /-- The goal does not hold and no event can happen. -/
  | stuck
  /-- The goal does not hold, and some event can happen. -/
  | active
  deriving DecidableEq, Repr

namespace Updating

variable {t : PlanningTask}

/-- The standing of a world of a state. -/
def standing (arena : Arena) (state : State) (w : WorldId) : Updating t Standing := do
  if ← ofExcept (t.goal.evaluate arena state w) then return .goal
  if ← hasApplicableEvent arena state w then return .active
  return .stuck

/-- The standings of the worlds of some nodes, in order. -/
def standings (arena : Arena) (nodes : List Node) : Updating t (List (List Standing)) :=
  nodes.mapM fun n => n.state.possible.mapM fun w => standing arena n.state w

end Updating

namespace Induction

/-- The costs of the steps from a world. -/
def edgeCosts (arena : Arena) (w : WorldId) : List (EdgeId × Cost) :=
  (arena.world w).outgoing.map fun e => (e, (arena.world (arena.edge e).child).cost.successor)

/-- The cost of a world, given those of its steps. -/
def worldCost (leaf : Bool) (edges : List Cost) : Standing → Cost
  | .goal => .settled 0
  | .stuck => .infinity
  | .active => if leaf then .provisional 1 else .best edges

/-- Writes the cost of a world and of its steps. -/
def settleWorld (leaf : Bool) (arena : Arena) (w : WorldId) (standing : Standing) : Arena :=
  let edges := edgeCosts arena w
  let cost := worldCost leaf (edges.map Prod.snd) standing
  let arena := edges.foldl (fun arena (e, c) => arena.modifyEdge e fun edge =>
    { edge with cost := c }) arena
  arena.modifyWorld w fun world => { world with cost }

/-- Writes the costs of a node and its worlds. -/
def settleNode (leaf : Bool) (tree : SearchTree) (n : NodeId) (standings : List Standing) :
    SearchTree :=
  let worlds := (tree.node n).state.possible.zip standings
  let arena := worlds.foldl (fun arena (w, s) => settleWorld leaf arena w s) tree.arena
  let tree := { tree with arena }
  { tree with
    nodes := tree.nodes.modify n.index fun node => { node with cost := tree.designatedCost n } }

end Induction

namespace Planning

variable {t : PlanningTask}

/-- Computes all costs anew. -/
def settle : Planning t Unit := do
  let run ← get
  let tree := run.tree
  let ids := tree.nodeIds.reverse
  let standings ← ofUpdating (Updating.standings tree.arena (ids.map tree.node))
  let tree := (ids.zip standings).foldl
    (fun tree (n, s) => Induction.settleNode (run.isLeaf (tree.node n)) tree n s)
    { tree with arena := tree.arena.resetCosts }
  set { run with tree }

end Planning

end EpistemicPlanning
