import EpistemicPlanning.Proofs.Arena
import EpistemicPlanning.SearchTree

/-!
# The shape of a search tree

The marks of a search are costs, pruned worlds and edges, what agents can be sure of, and cut links.
Two trees have the same shape when they differ in marks only. Computing costs and pruning keep the
shape of the tree.
-/
namespace EpistemicPlanning

/-- A world without the marks of a search. -/
def World.unmarked (w : World) : World :=
  { w with cost := .undefined, agentCosts := ∅, pruned := false }

/-- A provenance edge without the marks of a search. -/
def ProvenanceEdge.unmarked (e : ProvenanceEdge) : ProvenanceEdge :=
  { e with cost := .undefined, pruned := false }

/-- A node without its cost and without cuts. -/
def Node.unmarked (n : Node) : Node :=
  { n with
    cost := .undefined
    state := { n.state with relation := n.state.relation.clearCuts } }

namespace Arena

/-- Two arenas differ in marks only. -/
structure SameShape (a b : Arena) : Prop where
  worlds : a.worlds.size = b.worlds.size
  edges : a.edges.size = b.edges.size
  world : ∀ w, (a.world w).unmarked = (b.world w).unmarked
  edge : ∀ e, (a.edge e).unmarked = (b.edge e).unmarked

namespace SameShape

variable {a b c : Arena} {w : WorldId} {e : EdgeId}

protected theorem refl (a : Arena) : a.SameShape a := ⟨rfl, rfl, fun _ => rfl, fun _ => rfl⟩

protected theorem symm (h : a.SameShape b) : b.SameShape a :=
  ⟨h.worlds.symm, h.edges.symm, fun w => (h.world w).symm, fun e => (h.edge e).symm⟩

protected theorem trans (h : a.SameShape b) (h' : b.SameShape c) : a.SameShape c :=
  ⟨h.worlds.trans h'.worlds, h.edges.trans h'.edges, fun w => (h.world w).trans (h'.world w),
    fun e => (h.edge e).trans (h'.edge e)⟩

theorem valuation (h : a.SameShape b) : (a.world w).valuation = (b.world w).valuation := by
  change (a.world w).unmarked.valuation = (b.world w).unmarked.valuation
  rw [h.world w]

theorem incoming (h : a.SameShape b) : (a.world w).incoming = (b.world w).incoming := by
  change (a.world w).unmarked.incoming = (b.world w).unmarked.incoming
  rw [h.world w]

theorem outgoing (h : a.SameShape b) : (a.world w).outgoing = (b.world w).outgoing := by
  change (a.world w).unmarked.outgoing = (b.world w).unmarked.outgoing
  rw [h.world w]

theorem child (h : a.SameShape b) : (a.edge e).child = (b.edge e).child := by
  change (a.edge e).unmarked.child = (b.edge e).unmarked.child
  rw [h.edge e]

theorem parent (h : a.SameShape b) : (a.edge e).parent = (b.edge e).parent := by
  change (a.edge e).unmarked.parent = (b.edge e).unmarked.parent
  rw [h.edge e]

theorem event (h : a.SameShape b) : (a.edge e).event = (b.edge e).event := by
  change (a.edge e).unmarked.event = (b.edge e).unmarked.event
  rw [h.edge e]

theorem action (h : a.SameShape b) : (a.edge e).action = (b.edge e).action := by
  change (a.edge e).unmarked.action = (b.edge e).unmarked.action
  rw [h.edge e]

theorem agent (h : a.SameShape b) : (a.edge e).agent = (b.edge e).agent := by
  change (a.edge e).unmarked.agent = (b.edge e).unmarked.agent
  rw [h.edge e]

end SameShape

theorem Consistent.of_sameShape {a b : Arena} (h : a.Consistent) (s : a.SameShape b) :
    b.Consistent := by
  refine ⟨fun e he => ?_, fun w e => ?_, fun w => ?_, fun w e => ?_⟩
  · rw [← s.parent, ← s.child, ← s.worlds]
    exact h.ends e (s.edges ▸ he)
  · rw [← s.outgoing, ← s.edges, ← s.parent]
    exact h.outgoing w e
  · rw [← s.outgoing]
    exact h.nodup w
  · rw [← s.incoming, ← s.edges, ← s.child]
    exact h.incoming w e

variable {a : Arena}

theorem sameShape_modifyWorld {w : WorldId} {f : World → World}
    (h : ∀ x, (f x).unmarked = x.unmarked) : (a.modifyWorld w f).SameShape a where
  worlds := size_worlds_modifyWorld f
  edges := rfl
  world _ := world_modifyWorld_field World.unmarked h
  edge _ := rfl

theorem sameShape_modifyEdge {e : EdgeId} {f : ProvenanceEdge → ProvenanceEdge}
    (h : ∀ x, (f x).unmarked = x.unmarked) : (a.modifyEdge e f).SameShape a where
  worlds := rfl
  edges := size_edges_modifyEdge f
  world _ := rfl
  edge _ := edge_modifyEdge_field ProvenanceEdge.unmarked h

theorem sameShape_resetCosts : a.resetCosts.SameShape a where
  worlds := size_worlds_resetCosts
  edges := size_edges_resetCosts
  world _ := by rw [world_resetCosts]; rfl
  edge _ := by rw [edge_resetCosts]; rfl

theorem sameShape_resetPruning : a.resetPruning.SameShape a where
  worlds := size_worlds_resetPruning
  edges := size_edges_resetPruning
  world _ := by rw [world_resetPruning]; rfl
  edge _ := by rw [edge_resetPruning]; rfl

end Arena

namespace SearchTree

variable {g h k : SearchTree} {m n : NodeId}

/-! ### Nodes -/

theorem node?_eq_some (hn : n.index < g.size) : g.node? n = some (g.node n) := by
  have hn' : n.index < g.nodes.size := hn
  simp [node, node?, hn']

theorem node_modify_self (f : Node → Node) (hn : n.index < g.size) :
    ({ g with nodes := g.nodes.modify n.index f } : SearchTree).node n = f (g.node n) := by
  unfold node node?
  rw [Array.getElem?_modify, if_pos rfl, Array.getElem?_eq_getElem hn]
  rfl

theorem node_modify_of_ne (f : Node → Node) (hne : m ≠ n) :
    ({ g with nodes := g.nodes.modify n.index f } : SearchTree).node m = g.node m := by
  have hne' : n.index ≠ m.index := fun heq => hne (Handle.index_injective heq.symm)
  unfold node node?
  rw [Array.getElem?_modify, if_neg hne']

/-- A change of one node that keeps a part of it keeps this part of every node. -/
theorem node_modify_field {α : Type} (p : Node → α) {f : Node → Node}
    (hf : p (f (g.node n)) = p (g.node n)) :
    p (({ g with nodes := g.nodes.modify n.index f } : SearchTree).node m) = p (g.node m) := by
  by_cases hm : m = n
  · subst hm
    by_cases hin : m.index < g.size
    · rw [node_modify_self f hin, hf]
    · have hout : g.nodes.size ≤ m.index := Nat.le_of_not_lt hin
      simp [node, node?, hout]
  · rw [node_modify_of_ne f hm]

theorem mem_nodeIds : n ∈ g.nodeIds ↔ n.index < g.size := by
  unfold nodeIds
  constructor
  · intro h
    obtain ⟨i, hi, rfl⟩ := List.mem_map.1 h
    exact List.mem_range.1 hi
  · intro h
    exact List.mem_map.2 ⟨n.index, List.mem_range.2 h, rfl⟩

/-! ### Trees that differ in marks -/

/-- Two trees differ in marks only. -/
structure SameShape (g h : SearchTree) : Prop where
  size : g.size = h.size
  node : ∀ n, (g.node n).unmarked = (h.node n).unmarked
  arena : g.arena.SameShape h.arena

namespace SameShape

protected theorem refl (g : SearchTree) : g.SameShape g := ⟨rfl, fun _ => rfl, .refl _⟩

protected theorem symm (s : g.SameShape h) : h.SameShape g :=
  ⟨s.size.symm, fun n => (s.node n).symm, s.arena.symm⟩

protected theorem trans (s : g.SameShape h) (s' : h.SameShape k) : g.SameShape k :=
  ⟨s.size.trans s'.size, fun n => (s.node n).trans (s'.node n), s.arena.trans s'.arena⟩

theorem parent (s : g.SameShape h) : (g.node n).parent = (h.node n).parent := by
  change (g.node n).unmarked.parent = (h.node n).unmarked.parent
  rw [s.node n]

theorem depth (s : g.SameShape h) : (g.node n).depth = (h.node n).depth := by
  change (g.node n).unmarked.depth = (h.node n).unmarked.depth
  rw [s.node n]

theorem action (s : g.SameShape h) : (g.node n).action = (h.node n).action := by
  change (g.node n).unmarked.action = (h.node n).unmarked.action
  rw [s.node n]

theorem children (s : g.SameShape h) : (g.node n).children = (h.node n).children := by
  change (g.node n).unmarked.children = (h.node n).unmarked.children
  rw [s.node n]

theorem possible (s : g.SameShape h) : (g.node n).state.possible = (h.node n).state.possible := by
  change (g.node n).unmarked.state.possible = (h.node n).unmarked.state.possible
  rw [s.node n]

theorem designated (s : g.SameShape h) :
    (g.node n).state.designated = (h.node n).state.designated := by
  change (g.node n).unmarked.state.designated = (h.node n).unmarked.state.designated
  rw [s.node n]

theorem nodes (s : g.SameShape h) :
    (g.node n).state.relation.nodes = (h.node n).state.relation.nodes := by
  change (g.node n).unmarked.state.relation.nodes = (h.node n).unmarked.state.relation.nodes
  rw [s.node n]

theorem links (s : g.SameShape h) :
    (g.node n).state.relation.links = (h.node n).state.relation.links := by
  change (g.node n).unmarked.state.relation.links = (h.node n).unmarked.state.relation.links
  rw [s.node n]

end SameShape

theorem sameShape_modify {f : Node → Node}
    (hf : (f (g.node n)).unmarked = (g.node n).unmarked) :
    ({ g with nodes := g.nodes.modify n.index f } : SearchTree).SameShape g where
  size := by simp [size]
  node _ := node_modify_field Node.unmarked hf
  arena := .refl _

theorem sameShape_arena {arena : Arena} (s : arena.SameShape g.arena) :
    ({ g with arena } : SearchTree).SameShape g := ⟨rfl, fun _ => rfl, s⟩

end SearchTree

end EpistemicPlanning
