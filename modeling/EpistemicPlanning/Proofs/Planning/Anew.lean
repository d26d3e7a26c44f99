import EpistemicPlanning.Planning.Rationality
import EpistemicPlanning.Proofs.Planning.Costing
import EpistemicPlanning.Proofs.SearchTree.Bare

/-!
# Marks are computed anew

Computing costs neither reads nor writes other marks, and nothing is left of the costs before
(`SearchTree.unpruned_settleAll`). Pruning reads no mark but costs, and nothing is left of other
marks (`Rationality.prune_congr`).
-/
namespace EpistemicPlanning

open SearchTree Induction

variable {arena : Arena} {g g' : SearchTree} {n : NodeId} {w : WorldId} {leaf : Bool}
variable {s : Standing} {ss : List Standing} {l : List (NodeId × List Standing)} {limit : Nat}

/-- A node without cuts. -/
def Node.uncut (n : Node) : Node := { n with state := n.state.uncut }

/-- A tree without marks other than costs. -/
def SearchTree.unpruned (g : SearchTree) : SearchTree :=
  { g with nodes := g.nodes.map Node.uncut, arena := g.arena.resetPruning }

namespace SearchTree

theorem size_unpruned : g.unpruned.size = g.size := Array.size_map

theorem node?_unpruned : g.unpruned.node? n = (g.node? n).map Node.uncut := Array.getElem?_map

theorem node_unpruned : g.unpruned.node n = (g.node n).uncut := by
  unfold node
  rw [node?_unpruned]
  cases g.node? n <;> rfl

theorem uncosted_unpruned : g.unpruned.uncosted = g.bare := by
  unfold uncosted unpruned bare Arena.resetCosts Arena.resetPruning Arena.unmarked
  simp only [Array.map_map]
  rfl

theorem bare_of_unpruned (h : g.unpruned = g'.unpruned) : g.bare = g'.bare := by
  rw [← uncosted_unpruned, h, uncosted_unpruned]

theorem cost_of_unpruned (h : g.unpruned = g'.unpruned) (w : WorldId) :
    (g.arena.world w).cost = (g'.arena.world w).cost := by
  have hworld : g.arena.resetPruning.world w = g'.arena.resetPruning.world w :=
    congrArg (fun g : SearchTree => g.arena.world w) h
  rw [Arena.world_resetPruning, Arena.world_resetPruning] at hworld
  have hcost := congrArg World.cost hworld
  exact hcost

end SearchTree

/-! ### Costs -/

namespace Arena

theorem resetPruning_modifyWorld_cost (c : Cost) :
    (arena.modifyWorld w fun x => { x with cost := c }).resetPruning =
      arena.resetPruning.modifyWorld w fun x => { x with cost := c } := by
  unfold resetPruning modifyWorld
  rw [map_modify fun x : World => { x with cost := c }]
  intro _
  rfl

theorem resetPruning_modifyEdge_cost (e : EdgeId) (c : Cost) :
    (arena.modifyEdge e fun x => { x with cost := c }).resetPruning =
      arena.resetPruning.modifyEdge e fun x => { x with cost := c } := by
  unfold resetPruning modifyEdge
  rw [map_modify fun x : ProvenanceEdge => { x with cost := c }]
  intro _
  rfl

theorem resetPruning_resetCosts :
    arena.resetCosts.resetPruning = arena.resetPruning.resetCosts := by
  unfold resetPruning resetCosts
  simp only [Array.map_map]
  rfl

end Arena

namespace Induction

theorem edgeCosts_resetPruning : edgeCosts arena.resetPruning w = edgeCosts arena w := by
  unfold edgeCosts
  simp only [Arena.world_resetPruning, Arena.edge_resetPruning]

theorem resetPruning_writeCosts {edges : List (EdgeId × Cost)} :
    (writeCosts arena edges).resetPruning = writeCosts arena.resetPruning edges := by
  induction edges generalizing arena with
  | nil => rfl
  | cons p edges ih =>
    refine (@ih _).trans ?_
    rw [Arena.resetPruning_modifyEdge_cost]
    rfl

theorem resetPruning_settleWorld :
    (settleWorld leaf arena w s).resetPruning = settleWorld leaf arena.resetPruning w s := by
  rw [settleWorld_eq, settleWorld_eq, Arena.resetPruning_modifyWorld_cost, resetPruning_writeCosts,
    edgeCosts_resetPruning]

theorem resetPruning_settleWorlds {l : List (WorldId × Standing)} :
    (settleWorlds leaf arena l).resetPruning = settleWorlds leaf arena.resetPruning l := by
  induction l generalizing arena with
  | nil => rfl
  | cons p l ih => rw [settleWorlds_cons, settleWorlds_cons, ih, resetPruning_settleWorld]

end Induction

namespace SearchTree

theorem designatedCost_unpruned : g.unpruned.designatedCost n = g.designatedCost n := by
  have hdesignated : g.unpruned.designated n = g.designated n := by
    unfold designated
    rw [node?_unpruned]
    cases g.node? n <;> rfl
  have hcost : ∀ w, (g.unpruned.arena.world w).cost = (g.arena.world w).cost := by
    intro w
    change (g.arena.resetPruning.world w).cost = _
    rw [Arena.world_resetPruning]
  unfold designatedCost
  simp only [hdesignated, hcost]

theorem nodes_settleNode : (settleNode leaf g n ss).nodes =
    g.nodes.modify n.index fun x => { x with cost :=
      ({ g with arena := (settleNode leaf g n ss).arena } : SearchTree).designatedCost n } := rfl

theorem unpruned_settleNode :
    (settleNode leaf g n ss).unpruned = settleNode leaf g.unpruned n ss := by
  have hpossible : (g.unpruned.node n).state.possible = (g.node n).state.possible := by
    rw [node_unpruned]
    rfl
  have harena : (settleNode leaf g n ss).arena.resetPruning =
      (settleNode leaf g.unpruned n ss).arena := by
    rw [arena_settleNode, arena_settleNode, resetPruning_settleWorlds, hpossible]
    rfl
  have hcost : ({ g.unpruned with arena := (settleNode leaf g.unpruned n ss).arena } :
        SearchTree).designatedCost n =
      ({ g with arena := (settleNode leaf g n ss).arena } : SearchTree).designatedCost n := by
    rw [← harena]
    exact designatedCost_unpruned (g := { g with arena := (settleNode leaf g n ss).arena })
  have hnodes : (settleNode leaf g n ss).nodes.map Node.uncut =
      (settleNode leaf g.unpruned n ss).nodes := by
    rw [nodes_settleNode, nodes_settleNode, hcost]
    refine map_modify _ ?_ _ _
    intro _
    rfl
  unfold unpruned
  rw [harena, hnodes]
  rfl

theorem unpruned_settleNodes :
    (settleNodes limit g l).unpruned = settleNodes limit g.unpruned l := by
  induction l generalizing g with
  | nil => rfl
  | cons p l ih =>
    have hdepth : (g.unpruned.node p.1).depth = (g.node p.1).depth := by
      rw [node_unpruned]
      rfl
    refine (@ih _).trans ?_
    rw [unpruned_settleNode, ← hdepth]
    rfl

/-- Settling all nodes overwrites all costs, and leaves other marks alone. -/
theorem unpruned_settleAll (h : g.bare = g'.bare)
    (hl : ∀ n, n.index < g.size → n ∈ l.map Prod.fst) :
    (settleNodes limit { g with arena := g.arena.resetCosts } l).unpruned =
      (settleNodes limit { g' with arena := g'.arena.resetCosts } l).unpruned := by
  have hcomm : ∀ g : SearchTree, ({ g with arena := g.arena.resetCosts } : SearchTree).unpruned =
      { g.unpruned with arena := g.unpruned.arena.resetCosts } := by
    intro g
    unfold unpruned
    rw [Arena.resetPruning_resetCosts]
  rw [← uncosted_unpruned, ← uncosted_unpruned] at h
  rw [unpruned_settleNodes, unpruned_settleNodes, hcomm, hcomm]
  refine settleNodes_congr h fun n hn => hl n ?_
  rw [← size_unpruned]
  exact hn

end SearchTree

/-! ### Pruning -/

namespace Rationality

/-- The relation of a node with the worlds cut off whose own steps are pruned. -/
def cutRelation (g : SearchTree) (n : NodeId) : Accessibility .world :=
  (g.node n).state.relation.clearCuts.cutTouching (deadWorlds g.arena (g.node n))

/-- The arena after the steps of the worlds of a node have been pruned. -/
def prunedWorlds (g : SearchTree) (count : Nat) (n : NodeId) : Except ModelError Tally :=
  let dead := deadWorlds g.arena (g.node n)
  let marked := dead.toList.foldl
    (fun arena w => arena.modifyWorld w fun world => { world with pruned := true }) g.arena
  (g.node n).state.possible.foldlM (pruneWorld dead (liveClasses (cutRelation g n))) (marked, count)

/-- A tree with another relation at a node, and another arena. -/
def withRelation (g : SearchTree) (n : NodeId) (relation : Accessibility .world) (arena : Arena) :
    SearchTree :=
  { g with
    nodes := g.nodes.modify n.index fun node =>
      { node with state := { node.state with relation } }
    arena }

theorem pruneNode_eq (g : SearchTree) (count : Nat) (n : NodeId) :
    pruneNode (g, count) n = (prunedWorlds g count n).map fun tally =>
      (withRelation g n (cutRelation g n) tally.1, tally.2) := rfl

theorem size_withRelation (relation : Accessibility .world) :
    (withRelation g n relation arena).size = g.size := Array.size_modify

theorem node_withRelation_self (hn : n.index < g.size) (relation : Accessibility .world) :
    (withRelation g n relation arena).node n =
      { g.node n with state := { (g.node n).state with relation } } :=
  node_modify_self (g := { g with arena }) _ hn

theorem node_withRelation_of_ne {m : NodeId} (hne : m ≠ n) (relation : Accessibility .world) :
    (withRelation g n relation arena).node m = g.node m :=
  node_modify_of_ne (g := { g with arena }) _ hne

/-- Two trees in the course of pruning that may differ in the cuts of the nodes that are still to be
pruned. -/
structure SameUpTo (rest : List NodeId) (x y : SearchTree × Nat) : Prop where
  inTree : ∀ n ∈ rest, n.index < x.1.size
  count : x.2 = y.2
  arena : x.1.arena = y.1.arena
  size : x.1.size = y.1.size
  fingerprint : x.1.fingerprint = y.1.fingerprint
  stats : x.1.stats = y.1.stats
  uncut : ∀ n, n.index < x.1.size → (x.1.node n).uncut = (y.1.node n).uncut
  node : ∀ n, n.index < x.1.size → n ∉ rest → x.1.node n = y.1.node n

variable {x y : SearchTree × Nat} {rest : List NodeId}

theorem SameUpTo.eq (h : SameUpTo [] x y) : x = y := by
  have htree : x.1 = y.1 := eq_of_node h.size (fun n hn => h.node n hn List.not_mem_nil) h.arena
    h.fingerprint h.stats
  exact Prod.ext htree h.count

/-- The relation that is written takes the place of that of the node, cuts included. -/
theorem SameUpTo.withRelation (h : SameUpTo (n :: rest) x y) (relation : Accessibility .world)
    (tally : Tally) :
    SameUpTo rest (Rationality.withRelation x.1 n relation tally.1, tally.2)
      (Rationality.withRelation y.1 n relation tally.1, tally.2) := by
  have hn := h.inTree n List.mem_cons_self
  have hself : (Rationality.withRelation x.1 n relation tally.1).node n =
      (Rationality.withRelation y.1 n relation tally.1).node n := by
    rw [node_withRelation_self hn, node_withRelation_self (h.size ▸ hn)]
    exact congrArg (fun z : Node => { z with state := { z.state with relation } }) (h.uncut n hn)
  refine ⟨fun m hm => ?_, rfl, rfl, ?_, h.fingerprint, h.stats, fun m hm => ?_,
    fun m hm hrest => ?_⟩
  · rw [size_withRelation]
    exact h.inTree m (List.mem_cons_of_mem _ hm)
  · rw [size_withRelation, size_withRelation, h.size]
  · rw [size_withRelation] at hm
    by_cases hmn : m = n
    · rw [hmn, hself]
    · rw [node_withRelation_of_ne hmn, node_withRelation_of_ne hmn, h.uncut m hm]
  · rw [size_withRelation] at hm
    by_cases hmn : m = n
    · rw [hmn, hself]
    · rw [node_withRelation_of_ne hmn, node_withRelation_of_ne hmn]
      exact h.node m hm (List.not_mem_cons_of_ne_of_not_mem hmn hrest)

/-- Pruning a node does not depend on its cuts. -/
theorem SameUpTo.pruneNode (h : SameUpTo (n :: rest) x y) :
    Fallible.Together (SameUpTo rest) (pruneNode x n) (pruneNode y n) := by
  obtain ⟨g, count⟩ := x
  obtain ⟨g', count'⟩ := y
  obtain rfl : count = count' := h.count
  have huncut := h.uncut n (h.inTree n List.mem_cons_self)
  have hpossible : (g.node n).state.possible = (g'.node n).state.possible := by
    change (g.node n).uncut.state.possible = (g'.node n).uncut.state.possible
    rw [huncut]
  have hclear : (g.node n).state.relation.clearCuts = (g'.node n).state.relation.clearCuts := by
    change (g.node n).uncut.state.relation = (g'.node n).uncut.state.relation
    rw [huncut]
  have harena : g.arena = g'.arena := h.arena
  have hdead : deadWorlds g.arena (g.node n) = deadWorlds g'.arena (g'.node n) := by
    unfold deadWorlds
    rw [harena, hpossible]
  have hrelation : cutRelation g n = cutRelation g' n := by
    unfold cutRelation
    rw [hdead, hclear]
  have hworlds : prunedWorlds g count n = prunedWorlds g' count n := by
    unfold prunedWorlds
    rw [hrelation, hdead, harena, hpossible]
  rw [pruneNode_eq, pruneNode_eq, hworlds, hrelation]
  cases prunedWorlds g' count n with
  | error e => exact .error e
  | ok tally => exact .ok (h.withRelation _ tally)

/-- Pruning writes the same marks whatever has been pruned or cut before. -/
theorem prune_congr (h : g.unpruned = g'.unpruned) : prune g = prune g' := by
  have hsize : g.size = g'.size := by rw [← size_unpruned, h, size_unpruned]
  have hids : g.nodeIds = g'.nodeIds := by
    unfold nodeIds
    rw [hsize]
  have harena : g.unpruned.arena = g'.unpruned.arena := by rw [h]
  have hfingerprint : g.unpruned.fingerprint = g'.unpruned.fingerprint := by rw [h]
  have hstats : g.unpruned.stats = g'.unpruned.stats := by rw [h]
  have hstart : SameUpTo g.nodeIds ({ g with arena := g.arena.resetPruning }, 0)
      ({ g' with arena := g'.arena.resetPruning }, 0) := by
    refine ⟨fun n hn => mem_nodeIds.1 hn, rfl, harena, hsize, hfingerprint, hstats, fun n _ => ?_,
      fun n hn hout => absurd (mem_nodeIds.2 hn) hout⟩
    change (g.node n).uncut = (g'.node n).uncut
    rw [← node_unpruned, h, node_unpruned]
  have hend := Fallible.Together.foldlM (R := SameUpTo) (fun _ _ _ _ h => h.pruneNode) hstart
  unfold prune
  rw [← hids]
  exact hend.eq fun _ _ h => h.eq

end Rationality

end EpistemicPlanning
