import EpistemicPlanning.Proofs.Plan.Basic
import EpistemicPlanning.Proofs.Policy.Moves

/-!
# Running the policy of a plan

A plan can be run on the task that it was made for. Whatever the choices are, the run succeeds and
goes down the tree, and its report says where it ends (`Planner.plan_runs`).
-/
namespace EpistemicPlanning

variable {t : PlanningTask} {g g' : SearchTree} {n : NodeId} {k limit : Nat}
variable {l : List (Action × ActionId)}

/-! ### Plans and the task they are made for -/

namespace SearchTree

theorem fingerprint_of_sprout {p : Action × ActionId} (h : g.sprout t n p = .ok g') :
    g'.fingerprint = g.fingerprint := by
  rcases sprout_cases h with ⟨_, _, rfl⟩ | ⟨next, arena, _, rfl⟩
  · rfl
  · rfl

theorem Unfolding.fingerprint (h : Unfolding t k l g) : g.fingerprint = t.fingerprint := by
  induction h with
  | root => rfl
  | sprout _ _ _ hsprout ih => exact (fingerprint_of_sprout hsprout).trans ih
  | next _ _ ih => exact ih

theorem fingerprint_settleNodes {ss : List (NodeId × List Standing)} :
    (settleNodes limit g ss).fingerprint = g.fingerprint := by
  induction ss generalizing g with
  | nil => rfl
  | cons s ss ih => exact ih

theorem fingerprint_withCosts (h : g.withCosts t limit = .ok g') :
    g'.fingerprint = g.fingerprint := by
  obtain ⟨sss, _, rfl⟩ := Fallible.map_eq_ok h
  exact fingerprint_settleNodes

end SearchTree

theorem Rationality.fingerprint_of_prune {count : Nat} (h : prune g = .ok (g', count)) :
    g'.fingerprint = g.fingerprint := by
  refine Fallible.foldlM_inv (fun s : SearchTree × Nat => s.1.fingerprint = g.fingerprint) rfl
    (fun n _ s s' hs hstep => ?_) h
  unfold pruneNode at hstep
  obtain ⟨_, _, hstep⟩ := Fallible.bind_eq_ok hstep
  cases hstep
  exact hs

theorem Planner.fingerprint_of_plan {p : Planner} (hacc : t.Accepted) (h : p.plan t = .ok g) :
    g.fingerprint = t.fingerprint := by
  obtain ⟨r, hmade⟩ := plan_of_run h
  obtain ⟨r₀, hstart, hround⟩ := hmade.round
  obtain ⟨f, hunfold, hcosts⟩ := Fallible.bind_eq_ok (hstart.after hacc hround).tree
  obtain ⟨_, hcut⟩ := PlanningTask.cutAt_of_unfoldTo hacc hunfold
  obtain ⟨pruned, hprune, hg⟩ := hmade.pruned
  calc g.fingerprint
    _ = pruned.fingerprint := by rw [hg]
    _ = r.tree.fingerprint := Rationality.fingerprint_of_prune hprune
    _ = f.fingerprint := SearchTree.fingerprint_withCosts hcosts
    _ = t.fingerprint := hcut.unfolding.fingerprint

/-- A plan can be bound to the task that it was made for. -/
theorem Planner.ofTask_plan {p : Planner} (hacc : t.Accepted) (h : p.plan t = .ok g) :
    Policy.ofTask g t = .ok ⟨g, t⟩ := by
  unfold Policy.ofTask
  rw [if_pos (fingerprint_of_plan hacc h)]

/-! ### The end of a run -/

namespace SearchTree

variable {p : Policy}

theorem IsPlan.succeeds_goal (h : g.IsPlan t) (hn : n.index < g.size) {w : WorldId}
    (hw : w ∈ (g.node n).state.possible) :
    Fallible.Succeeds (t.goal.evaluate g.arena (g.node n).state w) := by
  obtain ⟨standing, hcorrect, _⟩ := (h.costed.node n hn).worlds w hw
  cases standing with
  | goal => exact ⟨true, hcorrect⟩
  | stuck => exact ⟨false, hcorrect.1⟩
  | active => exact ⟨false, hcorrect.1⟩

/-- At each node of a plan it can be told whether the goal counts as reached. -/
theorem IsPlan.goalReached_eq (h : g.IsPlan t) (hn : n.index < g.size) :
    ∃ reached, (⟨g, t⟩ : Policy).goalReached n = .ok reached ∧
      (reached = true ↔ g.liveDesignated n ≠ [] ∧
        ∀ w ∈ g.liveDesignated n, t.goal.evaluate g.arena (g.node n).state w = .ok true) := by
  unfold Policy.goalReached
  by_cases hnone : g.liveDesignated n = []
  · refine ⟨false, ?_, ?_⟩
    · rw [hnone]
      rfl
    · simp [hnone]
  · have hsome : (g.liveDesignated n).isEmpty = false := List.isEmpty_eq_false_iff.2 hnone
    have htotal : ∀ w ∈ g.liveDesignated n,
        Fallible.Succeeds (t.goal.evaluate g.arena (g.node n).state w) := fun w hw =>
      h.succeeds_goal hn ((h.wellFormed.state n hn).designated_possible w
        ((mem_liveDesignated hn).1 hw).1)
    obtain ⟨reached, hreached⟩ := Fallible.succeeds_allM htotal
    refine ⟨reached, ?_, ?_⟩
    · simp only [hsome, Bool.false_eq_true, if_false]
      exact hreached
    · constructor
      · rintro rfl
        exact ⟨hnone, Fallible.allM_eq_ok_true hreached⟩
      · intro hall
        exact Except.ok.inj (hreached.symm.trans (Fallible.allM_of_forall hall.2))

end SearchTree

/-! ### The whole run -/

namespace Policy

open SearchTree

/-- What the report of a run says about the moves that the run made. -/
structure RunsDown (t : PlanningTask) (g : SearchTree) (maxSteps : Nat) (path : List Move)
    (report : ExecutionReport) : Prop where
  /-- The node after `i` moves is at depth `i`. -/
  depth : ∀ i ≤ path.length, (g.node (lastNode root (path.take i))).depth = i
  /-- Each move is along a live edge from a live designated world, by the action that is named. -/
  moves : ∀ i m, path[i]? = some m → g.Moves t (lastNode root (path.take i)) m ∧
    ∃ action, t.action? (g.arena.edge m.edge).action = some action ∧
      report.actions[i]? = some action.name
  actions : report.actions.length = path.length
  steps : report.steps = report.actions.length
  bound : report.steps ≤ min maxSteps g.stats.cutoffDepth
  /-- A run that is not cut off ends where the live designated worlds have no live edge. -/
  stopped : report.steps < maxSteps → ∀ w ∈ (g.node (lastNode root path)).state.designated,
    (g.arena.world w).pruned = false →
      ∀ e ∈ (g.arena.world w).outgoing, (g.arena.edge e).pruned = true
  finalWorlds : report.finalWorlds =
    (g.node (lastNode root path)).state.designated.toList.filter fun w =>
      !(g.arena.world w).pruned
  goalReached : report.goalReached = true ↔ report.finalWorlds ≠ [] ∧
    ∀ w ∈ report.finalWorlds,
      t.goal.evaluate g.arena (g.node (lastNode root path)).state w = .ok true

variable {σ : Type} {pick : Chooser σ} {maxSteps : Nat} {s : σ} {path : List Move}

theorem runWith_of_follows (h : g.IsPlan t) (hinv : g.Unfolded t k l)
    (hpath : Follows ⟨g, t⟩ pick maxSteps root s path) :
    ∃ report, (⟨g, t⟩ : Policy).runWith pick maxSteps s = .ok report ∧
      RunsDown t g maxSteps path report := by
  have hwf := h.wellFormed
  obtain ⟨s', hwalk⟩ := hpath.walk_eq
  have hdepth := hpath.depth_at hinv hwf hwf.nonempty
  have hlast := hdepth path.length (Nat.le_refl _)
  rw [List.take_length, hinv.breadthFirst.rootDepth, Nat.zero_add] at hlast
  obtain ⟨reached, hreached, hiff⟩ := h.goalReached_eq hlast.1
  have hlive : g.liveDesignated (lastNode root path) =
      (g.node (lastNode root path)).state.designated.toList.filter fun w =>
        !(g.arena.world w).pruned := by
    rw [liveDesignated, designated, node?_eq_some hlast.1]
  refine ⟨⟨(path.map fun m => (g.arena.edge m.edge).action).map (actionName ⟨g, t⟩), reached,
    path.length, g.liveDesignated (lastNode root path)⟩, ?_, fun i hi => ?_, fun i m hm => ?_,
    ?_, ?_, ?_, fun hlt w hw hpruned e he => ?_, hlive, hiff⟩
  · unfold runWith
    rw [hwalk]
    change (⟨g, t⟩ : Policy).goalReached (lastNode root path) >>= _ = _
    rw [hreached]
    simp
  · rw [(hdepth i hi).2, hinv.breadthFirst.rootDepth, Nat.zero_add]
  · have hmove := hpath.moves_at hinv hwf hwf.nonempty hm
    obtain ⟨action, hact, _⟩ := hmove.joins.owner
    refine ⟨hmove, action, hact, ?_⟩
    simp [hm, actionName, hact]
  · simp
  · simp
  · exact Nat.le_min.2 ⟨hpath.length_le, hlast.2 ▸ h.depth _ hlast.1⟩
  · by_contra hedge
    have hleft : e ∈ g.unprunedEdges (lastNode root path) :=
      (mem_unprunedEdges hlast.1).2 ⟨⟨w, hw, hpruned, he⟩, Bool.eq_false_iff.2 hedge⟩
    rw [hpath.stopped hlt] at hleft
    cases hleft

end Policy

/-- Chooses the first of all things. -/
def Lever.first : Policy.Chooser Unit := fun _ h s => (⟨0, h⟩, s)

end EpistemicPlanning
