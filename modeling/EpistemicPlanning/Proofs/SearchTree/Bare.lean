import EpistemicPlanning.Proofs.SearchTree.Uncosted
import EpistemicPlanning.Proofs.Update.Alike

/-!
# Trees without marks

A bare tree has none of the marks of a search: neither costs nor pruning nor cuts. Trees that are
equal without their marks stay so when the same child is added to both (`SearchTree.bare_addChild`).
-/
namespace EpistemicPlanning.SearchTree

variable {g g' : SearchTree} {n : NodeId} {a : ActionId} {next : State}

/-- A tree without the marks of a search. -/
def bare (g : SearchTree) : SearchTree :=
  { g with nodes := g.nodes.map Node.unmarked, arena := g.arena.unmarked }

theorem size_bare : g.bare.size = g.size := Array.size_map

theorem node_bare : g.bare.node n = (g.node n).unmarked := by
  unfold node node? bare
  rw [Array.getElem?_map]
  cases g.nodes[n.index]? <;> rfl

theorem bare_addChild : (g.addChild n a next).bare = g.bare.addChild n a next.uncut := by
  have hnodes : (g.bare.addChild n a next.uncut).nodes =
      (g.addChild n a next).nodes.map Node.unmarked :=
    nodes_addChild_map (fun _ => rfl) (fun _ _ => rfl) fun _ => rfl
  unfold bare
  rw [← hnodes]
  rfl

section

variable (h : g.bare = g'.bare)

include h

theorem size_of_bare : g.size = g'.size := by rw [← size_bare, h, size_bare]

theorem nodeIds_of_bare : g.nodeIds = g'.nodeIds := by
  unfold nodeIds
  rw [size_of_bare h]

theorem unmarked_of_bare (n : NodeId) : (g.node n).unmarked = (g'.node n).unmarked := by
  rw [← node_bare, h, node_bare]

theorem depth_of_bare (n : NodeId) : (g.node n).depth = (g'.node n).depth := by
  change (g.node n).unmarked.depth = (g'.node n).unmarked.depth
  rw [unmarked_of_bare h]

theorem equalUnmarked_of_bare (n : NodeId) :
    EqualUnmarked g.arena (g.node n).state g'.arena (g'.node n).state where
  arena := congrArg SearchTree.arena h
  state := by
    change (g.node n).unmarked.state = (g'.node n).unmarked.state
    rw [unmarked_of_bare h]

end

end EpistemicPlanning.SearchTree
