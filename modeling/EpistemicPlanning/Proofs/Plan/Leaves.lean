import EpistemicPlanning.Proofs.Lever
import EpistemicPlanning.Proofs.Planning.QueueLevels

/-!
# The leaves of a tree

When a tree has been built, the nodes that have not been expanded are those at the bound, and these
are the leaves (`Planner.frontier_holds_leaves`). The bound may have been lowered while a level was
being expanded, and it is raised from round to round, but no node is left above or below it.
-/
namespace EpistemicPlanning

open SearchTree Planning

variable {t : PlanningTask} {c : PlannerConfig} {q : QueuedRun} {n : NodeId} {k : Nat}

namespace QueuedRun

/-- What holds of a run when its tree has been built. -/
structure AtBound (t : PlanningTask) (c : PlannerConfig) (q : QueuedRun) : Prop where
  /-- The frontier is in the order of numbers, without repetition. -/
  ascending : q.run.frontier.Pairwise fun m n => m.index < n.index
  /-- It lists the nodes that have not been expanded. -/
  unexpanded : ∀ n, n ∈ q.run.frontier ↔ n.index < q.run.tree.size ∧ n ∉ q.expanded
  /-- All actions have been tried at the nodes that have been expanded, and no others have
  children. -/
  tried : ∀ n ∈ q.expanded, q.run.tree.ExpandedBy t n t.numbered
  childless : ∀ n ∈ q.run.frontier, (q.run.tree.node n).children = []
  /-- All nodes of the frontier are at the bound. -/
  depth : ∀ n ∈ q.run.frontier, (q.run.tree.node n).depth = q.run.limit
  leaves : ∀ n, n ∈ q.run.leaves ↔ n ∈ q.run.frontier
  /-- The nodes above the bound have been expanded once each. -/
  above : ∀ n, n.index < q.run.tree.size → (q.run.tree.node n).depth < q.run.limit →
    q.expanded.count n = 1
  /-- There are no nodes below the bound. -/
  below : ∀ n, n.index < q.run.tree.size → (q.run.tree.node n).depth ≤ q.run.limit
  /-- The depth of the goal is the least depth below the root of a node with a goal world. -/
  goal : ∀ d, q.run.goalDepth = some d ↔ IsLeast (q.run.tree.goalDepths t) d
  /-- The bound is between that depth, or its maximum before the goal is found, and its maximum. -/
  bounds : min (q.run.goalDepth.getD c.maxDepth) c.maxDepth ≤ q.run.limit ∧
    q.run.limit ≤ c.maxDepth

theorem InOrder.atBound (h : q.InOrder t c k) (hdone : q.run.mayGrow = false) :
    q.AtBound t c where
  ascending := h.frontier ▸ pairwise_idsFrom k q.run.tree.size
  unexpanded n := by
    rw [h.frontier, mem_idsFrom, h.mem_expanded, Nat.not_lt]
    exact And.comm
  tried _ hn := h.expandedBy hn
  childless _ hn := h.children_eq_nil hn
  depth _ hn := h.depth_of_done hdone hn
  leaves n := by
    rw [Run.mem_leaves]
    exact ⟨fun hn => hn.1, fun hn => ⟨hn, h.depth_of_done hdone hn⟩⟩
  above n hn hdepth := by
    refine h.count_expanded (Nat.lt_of_not_le fun hle => ?_)
    have hwaits : n ∈ q.run.frontier := by
      rw [h.frontier, mem_idsFrom]
      exact ⟨hle, hn⟩
    exact absurd (h.depth_of_done hdone hwaits) (Nat.ne_of_lt hdepth)
  below := h.within
  goal _ := h.aimed.goalDepth_eq_some_iff
  bounds := ⟨h.aimed.le_limit, h.aimed.limit_le⟩

end QueuedRun

namespace Planner

open QueuedRun

/-- How trees are built, through a queue or level by level, and what holds of them. -/
structure FrontierHoldsLeaves (t : PlanningTask) (c : PlannerConfig) : Prop where
  /-- Whether nodes wait in a queue or are expanded level by level, the same trees are built. -/
  grown : ∀ r, (∃ expanded, Built t c ⟨r, expanded⟩) ↔ r.Grown t c
  /-- Their costs are the same, whether leaves are told by the queue or by their depth. -/
  settled : ∀ q, Built t c q →
    exec (settleAt (t := t) q.run.leaves) q.run = exec (settle (t := t)) q.run
  built : ∀ q, Built t c q → q.AtBound t c
  /-- Once it has been found, the depth of the goal stays the same for the rest of the run. -/
  kept : ∀ q q' d, Relation.ReflTransGen (Step t c) q q' → q.run.goalDepth = some d →
    q'.run.goalDepth = some d
  /-- No attempt to take an action changes it either, not even one that fails. -/
  kept_by_attempt : ∀ r n action a d, r.goalDepth = some d →
    (exec (tryAndQueue (t := t) c n action a) r).2.goalDepth = some d

theorem frontier_holds_leaves (hacc : t.Accepted) (c : PlannerConfig) :
    FrontierHoldsLeaves t c where
  grown _ := exists_built_iff hacc
  settled _ hbuilt := hbuilt.reached.exec_settleAt_leaves hacc
  built q hbuilt := by
    obtain ⟨k, hk⟩ := hbuilt.reached.inOrder hacc
    exact hk.atBound hbuilt.done
  kept _ _ _ hsteps hgoal := goalDepth_of_steps hsteps hgoal
  kept_by_attempt r _ _ _ _ hgoal := keepsGoal_tryAndQueue r hgoal

end Planner

namespace Lever

/-- The run for the lever when it has begun its first round. -/
def firstBegun : Run := { Run.initial task planner.config with iterations := 1 }

/-- The run for the lever when its first tree has been built. -/
def firstBuilt : Run := (exec (grow (t := task) planner.config) firstBegun).2

/-- The run for the lever when the costs of its first tree have been computed. -/
def firstSettled : Run :=
  (exec (round (t := task) planner.config) (.initial task planner.config)).2

/-- The run for the lever when it has begun its second round. -/
def secondBegun : Run :=
  { firstSettled with limit := firstSettled.limit + 1, iterations := firstSettled.iterations + 1 }

/-- The run for the lever when its second tree has been built. -/
def secondBuilt : Run := (exec (grow (t := task) planner.config) secondBegun).2

/-- The first child of the root has a goal world, so the bound drops from three to one before the
second child is made. In the second round both children are expanded. -/
theorem frontier_of_lever : Planner.FrontierHoldsLeaves task planner.config ∧
    (∃ expanded, QueuedRun.Built task planner.config ⟨firstBuilt, expanded⟩) ∧
    firstBuilt.frontier = [⟨1⟩, ⟨2⟩] ∧ firstBuilt.limit = 1 ∧ firstBuilt.goalDepth = some 1 ∧
    (∃ expanded, QueuedRun.Built task planner.config ⟨secondBuilt, expanded⟩) ∧
    secondBuilt.frontier = [⟨3⟩, ⟨4⟩, ⟨5⟩, ⟨6⟩] ∧ secondBuilt.limit = 2 ∧
    secondBuilt.goalDepth = some 1 := by
  have hholds := Planner.frontier_holds_leaves accepted planner.config
  obtain ⟨hfirst, hqueue⟩ :
      (exec (grow (t := task) planner.config) firstBegun).1 = .ok ⟨⟩ ∧
      firstBuilt.frontier = [⟨1⟩, ⟨2⟩] ∧ firstBuilt.limit = 1 ∧
      firstBuilt.goalDepth = some 1 := by decide +kernel
  obtain ⟨hround, hopen, hfrontier, hlimit⟩ :
      (exec (round (t := task) planner.config) (.initial task planner.config)).1 = .ok ⟨⟩ ∧
      firstSettled.rootSettled = false ∧ firstSettled.frontier ≠ [] ∧
      firstSettled.limit < planner.config.maxDepth := by decide +kernel
  obtain ⟨hsecond, hqueue'⟩ :
      (exec (grow (t := task) planner.config) secondBegun).1 = .ok ⟨⟩ ∧
      secondBuilt.frontier = [⟨3⟩, ⟨4⟩, ⟨5⟩, ⟨6⟩] ∧ secondBuilt.limit = 2 ∧
      secondBuilt.goalDepth = some 1 := by decide +kernel
  have hraised := Run.AtRound.raised .initial (exec_eq_of_ok hround) hopen hfrontier hlimit
  have hbuilt := (hholds.grown firstBuilt).2 ⟨_, .initial, exec_eq_of_ok hfirst⟩
  have hbuilt' := (hholds.grown secondBuilt).2 ⟨_, hraised, exec_eq_of_ok hsecond⟩
  exact ⟨hholds, hbuilt, hqueue.1, hqueue.2.1, hqueue.2.2, hbuilt', hqueue'⟩

end Lever

end EpistemicPlanning
