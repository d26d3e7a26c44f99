import EpistemicPlanning.Proofs.Planning.Deepening
import EpistemicPlanning.Proofs.Planning.Rationality

/-!
# Plans

What a plan for an accepted task comes with: a well-formed tree within the cutoff depth, whose
costs satisfy the equations of backward induction and whose marks follow the rule of rationality
(`Planner.isPlan`).
-/
namespace EpistemicPlanning

variable {t : PlanningTask} {g g' : SearchTree} {n : NodeId} {limit : Nat}

namespace SearchTree

theorem CostedAt.of_sameCosts (h : g.CostedAt t limit n) (hwf : g.WellFormed t)
    (hn : n.index < g.size) (s : g'.SameShape g) (hc : g'.arena.SameCosts g.arena)
    (hnode : (g'.node n).cost = (g.node n).cost) : g'.CostedAt t limit n := by
  refine ⟨fun w hw => ?_, ?_⟩
  · rw [s.possible] at hw
    obtain ⟨standing, hcorrect, hsettled⟩ := h.worlds w hw
    refine ⟨standing, (correct_of_sameShape s.symm (hwf.state n hn) hw).1 hcorrect, ?_, ?_⟩
    · intro e he
      rw [s.arena.outgoing] at he
      rw [hc.edgeCost, s.arena.child, hc.worldCost]
      exact hsettled.step e he
    · simp only [s.depth, s.arena.outgoing, hc.edgeCost, hc.worldCost]
      exact hsettled.world
  · rw [hnode, h.cost]
    exact (designatedCost_congr s hn fun w _ => hc.worldCost w).symm

/-- What a plan comes with. -/
structure IsPlan (t : PlanningTask) (g : SearchTree) : Prop where
  wellFormed : g.WellFormed t
  depth : ∀ n, n.index < g.size → (g.node n).depth ≤ g.stats.cutoffDepth
  costed : g.Costed t g.stats.cutoffDepth
  rational : ∀ n, n.index < g.size → g.RationalAt n
  prunedEdges : g.stats.prunedEdges = g.arena.prunedCount
  /-- Worlds outside of the tree are not marked. -/
  outside : ∀ w, g.Outside w → (g.arena.world w).pruned = false ∧ (g.arena.world w).agentCosts = ∅
  designated : ∀ n, n.index < g.size → ∃ w, w ∈ (g.node n).state.designated

end SearchTree

theorem Run.exists_designated_root {r : Run} (h : r.rootHopeless = false) :
    ∃ w, w ∈ (r.tree.node SearchTree.root).state.designated := by
  unfold rootHopeless rootCosts at h
  cases hlist : (r.tree.node SearchTree.root).state.designated.toList with
  | nil => simp [hlist] at h
  | cons w ws => exact ⟨w, SortedSet.mem_def.2 (hlist ▸ List.mem_cons_self)⟩

/-- What a planner returns for an accepted task is a plan. -/
theorem Planner.isPlan {p : Planner} (hacc : t.Accepted) (hfresh : t.arena.Fresh)
    (h : p.plan t = .ok g) : g.IsPlan t := by
  obtain ⟨r, hmade⟩ := plan_of_run h
  obtain ⟨_, hstart, hround⟩ := hmade.round
  obtain ⟨hwf, hdepth, hcosted⟩ := (hstart.after hacc hround).costedTo hacc hfresh
  obtain ⟨pruned, hprune, hg⟩ := hmade.pruned
  have hcutoff := hmade.cutoffDepth
  have hrational := SearchTree.rational_of_prune hwf hprune
  have harena : g.arena = pruned.arena := by rw [hg]
  have hnode : ∀ n, g.node n = pruned.node n := fun n => by
    rw [hg]
    rfl
  have hstats : g.SameShape pruned := by
    rw [hg]
    exact ⟨rfl, fun _ => rfl, .refl _⟩
  have hshape : g.SameShape r.tree := hstats.trans hrational.shape
  have hwf' := hwf.of_sameShape hshape.symm
  refine ⟨hwf', fun n hn => ?_, ⟨fun n hn => ?_, fun w hw => ?_⟩, fun n hn => ?_, ?_,
    fun w hw => ?_, fun n hn => ?_⟩
  · rw [hcutoff, hshape.depth]
    exact hdepth n (hshape.size ▸ hn)
  · rw [hcutoff]
    rw [hshape.size] at hn
    refine (hcosted.node n hn).of_sameCosts hwf hn hshape (harena ▸ hrational.costs) ?_
    rw [hnode]
    exact hrational.nodeCost n
  · rw [harena, hrational.costs.worldCost]
    exact hcosted.outside w (hw.of_sameShape hshape.symm)
  · have hrule := hrational.rule n (hstats.size ▸ hn)
    unfold SearchTree.RationalAt SearchTree.sureOf at *
    rw [harena, hnode]
    exact hrule
  · rw [harena]
    exact hrational.count
  · rw [harena]
    exact hrational.outside w (hw.of_sameShape hstats.symm)
  · by_cases hroot : n = SearchTree.root
    · rw [hroot, hshape.designated]
      exact r.exists_designated_root hmade.hopeful
    · exact hwf'.designated n hn hroot

end EpistemicPlanning
