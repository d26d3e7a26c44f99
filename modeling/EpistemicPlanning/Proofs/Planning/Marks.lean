import EpistemicPlanning.Proofs.Planning.Rationality

/-!
# Pruning leaves costs alone

Whatever tree is pruned, the outcome differs from it in marks other than costs only
(`Rationality.sameCosts_of_prune`).
-/
namespace EpistemicPlanning

variable {g h k : SearchTree} {n : NodeId} {w : WorldId}

namespace SearchTree

/-- Two trees differ in marks other than costs only. -/
structure SameCosts (g h : SearchTree) : Prop extends g.SameShape h where
  nodeCost : ∀ n, (g.node n).cost = (h.node n).cost
  costs : g.arena.SameCosts h.arena

protected theorem SameCosts.trans (s : g.SameCosts h) (s' : h.SameCosts k) : g.SameCosts k :=
  ⟨s.toSameShape.trans s'.toSameShape, fun n => (s.nodeCost n).trans (s'.nodeCost n),
    s.costs.trans s'.costs⟩

theorem sameCosts_arena {arena : Arena} (s : arena.SameCosts g.arena) :
    ({ g with arena } : SearchTree).SameCosts g :=
  ⟨sameShape_arena s.toSameShape, fun _ => rfl, s⟩

theorem sameCosts_modify {f : Node → Node} (hf : (f (g.node n)).unmarked = (g.node n).unmarked)
    (hcost : (f (g.node n)).cost = (g.node n).cost) :
    ({ g with nodes := g.nodes.modify n.index f } : SearchTree).SameCosts g :=
  ⟨sameShape_modify hf, fun _ => node_modify_field Node.cost hcost, .refl g.arena⟩

end SearchTree

namespace Rationality

variable {x y : Tally} {dead : SortedSet WorldId} {ws : List WorldId}
variable {classes : List (Agent × List (SortedSet WorldId))} {s s' : SearchTree × Nat}

theorem sameCosts_pruneDead : (pruneDead x w).1.SameCosts x.1 := by
  unfold pruneDead
  generalize (x.1.world w).outgoing = es
  induction es generalizing x with
  | nil => exact .refl x.1
  | cons e es ih =>
    rw [List.foldl_cons]
    refine ih.trans ?_
    split
    · exact .refl x.1
    · exact sameCosts_pruneEdge

theorem sameCosts_of_pruneWorld (h : pruneWorld dead classes x w = .ok y) :
    y.1.SameCosts x.1 := by
  unfold pruneWorld at h
  split at h
  · cases h
    exact sameCosts_pruneDead
  · rw [pruneLive_eq] at h
    rw [foldlM_pruneIrrational_eq h]
    exact sameCosts_pruneWhere.trans (@within_announce w x dead classes).costs

theorem sameCosts_of_pruneWorlds (h : ws.foldlM (pruneWorld dead classes) x = .ok y) :
    y.1.SameCosts x.1 := by
  refine Fallible.foldlM_inv (fun z => z.1.SameCosts x.1) (.refl x.1) (fun w _ z z' hz h => ?_) h
  exact (sameCosts_of_pruneWorld h).trans hz

theorem sameCosts_of_pruneNode (h : pruneNode s n = .ok s') : s'.1.SameCosts s.1 := by
  unfold pruneNode at h
  obtain ⟨⟨arena, count⟩, hworlds, h⟩ := Fallible.bind_eq_ok h
  cases h
  have harena : arena.SameCosts s.1.arena :=
    (sameCosts_of_pruneWorlds hworlds).trans sameCosts_markDead
  refine .trans ?_ (SearchTree.sameCosts_arena harena)
  exact @SearchTree.sameCosts_modify { s.1 with arena } n _ rfl rfl

theorem sameCosts_of_prune {pruned : SearchTree} {count : Nat}
    (h : prune g = .ok (pruned, count)) : pruned.SameCosts g := by
  have hstart : SearchTree.SameCosts { g with arena := g.arena.resetPruning } g :=
    SearchTree.sameCosts_arena Arena.sameCosts_resetPruning
  refine Fallible.foldlM_inv (fun s : SearchTree × Nat => s.1.SameCosts g) hstart
    (fun n _ s s' hs h => ?_) h
  exact (sameCosts_of_pruneNode h).trans hs

end Rationality

end EpistemicPlanning
