import EpistemicPlanning.SearchTree

/-!
# Pruning irrational steps

An agent never takes a step that costs more than what it can be sure of: the worst cost over the
live worlds it cannot tell apart. Nodes are pruned parents first. A world whose own step has been
pruned is dead; it does not count for what its neighbours can be sure of, and all its steps are
pruned with it.
-/
namespace EpistemicPlanning.Rationality

/-- The worlds of a node whose own step has been pruned. -/
def deadWorlds (arena : Arena) (node : Node) : SortedSet WorldId :=
  SortedSet.ofList (node.state.possible.filter arena.incomingPruned)

/-- For each agent, the classes of worlds that its uncut links join. -/
def liveClasses (relation : Accessibility .world) :
    List (Agent × List (SortedSet WorldId)) :=
  relation.agents.toList.map fun a => (a, relation.classesOf a .respectCuts)

/-- What an agent can be sure of at a world: the worst cost over the live worlds that it cannot
tell apart from it. -/
def guaranteed (arena : Arena) (dead : SortedSet WorldId) (classes : List (SortedSet WorldId))
    (w : WorldId) : Cost :=
  let live := (classOf classes w).toList.filter fun v => !dead.contains v
  .worst (live.map fun v => (arena.world v).cost)

/-- An arena and the number of steps pruned so far. -/
abbrev Tally := Arena × Nat

/-- Prunes a step. -/
def pruneEdge (tally : Tally) (e : EdgeId) : Tally :=
  (tally.1.modifyEdge e fun edge => { edge with pruned := true }, tally.2 + 1)

/-- Prunes the remaining steps of a dead world. -/
def pruneDead (tally : Tally) (w : WorldId) : Tally :=
  (tally.1.world w).outgoing.foldl
    (fun tally e => if (tally.1.edge e).pruned then tally else pruneEdge tally e) tally

/-- Prunes a step that costs more than what its owner can be sure of. -/
def pruneIrrational (w : WorldId) (tally : Tally) (e : EdgeId) : Except ModelError Tally :=
  let edge := tally.1.edge e
  match (tally.1.world w).agentCosts.find? edge.agent with
  | none => .error (.agentNotFound edge.agent)
  | some cost => .ok (if cost.isStrictlyBelow edge.cost then pruneEdge tally e else tally)

/-- Writes what each agent can be sure of at a live world, and prunes its irrational steps. -/
def pruneLive (dead : SortedSet WorldId) (classes : List (Agent × List (SortedSet WorldId)))
    (tally : Tally) (w : WorldId) : Except ModelError Tally :=
  let (arena, count) := tally
  let costs := classes.map fun (a, cs) => (a, guaranteed arena dead cs w)
  let arena := arena.modifyWorld w fun world =>
    { world with agentCosts := costs.foldl (fun m (a, c) => m.insert a c) world.agentCosts }
  (arena.world w).outgoing.foldlM (pruneIrrational w) (arena, count)

/-- Prunes the steps of one world. -/
def pruneWorld (dead : SortedSet WorldId) (classes : List (Agent × List (SortedSet WorldId)))
    (tally : Tally) (w : WorldId) : Except ModelError Tally :=
  if dead.contains w then .ok (pruneDead tally w) else pruneLive dead classes tally w

/-- Marks the dead worlds of a node, cuts them off, and prunes the steps of all its worlds. -/
def pruneNode (state : SearchTree × Nat) (n : NodeId) : Except ModelError (SearchTree × Nat) := do
  let (tree, count) := state
  let node := tree.node n
  let dead := deadWorlds tree.arena node
  let relation := node.state.relation.clearCuts.cutTouching dead
  let marked := dead.toList.foldl
    (fun arena w => arena.modifyWorld w fun world => { world with pruned := true }) tree.arena
  let (arena, count) ←
    node.state.possible.foldlM (pruneWorld dead (liveClasses relation)) (marked, count)
  let nodes := tree.nodes.modify n.index fun node =>
    { node with state := { node.state with relation } }
  return ({ tree with nodes, arena }, count)

/-- Prunes a tree anew, and counts the pruned steps. -/
def prune (tree : SearchTree) : Except ModelError (SearchTree × Nat) :=
  tree.nodeIds.foldlM pruneNode ({ tree with arena := tree.arena.resetPruning }, 0)

end EpistemicPlanning.Rationality
