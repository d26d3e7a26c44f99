import EpistemicPlanning.Proofs.Planning.Marks
import EpistemicPlanning.Proofs.Planning.Rounds

/-!
# What a plan is made of

A plan is the pruned tree of the last round, in which the costs of the root became known
(`Planner.plan_of_run`). `Planner.Ended` lists the ways in which planning ends.
-/
namespace EpistemicPlanning

variable {t : PlanningTask} {p : Planner} {g : SearchTree}

namespace Planner

open Planning

theorem bounds_pos (p : Planner) :
    0 < p.config.maxDepth ∧ 0 < p.config.maxIterations ∧ 0 < p.config.maxNodes := by
  have hpositive := p.positive
  unfold PlannerConfig.zeroBound? at hpositive
  grind

theorem plan_eq_ok (h : p.plan t = .ok g) :
    ∃ tree r resolvedEvents, exec (Planning.tree (t := t) p.config) (.initial t p.config) =
      (.ok tree, r) ∧ g = { tree with stats := { tree.stats with resolvedEvents } } := by
  obtain ⟨tree, hresult, rfl⟩ := Fallible.map_eq_ok h
  exact ⟨tree, _, _, Prod.ext hresult rfl, rfl⟩

theorem plan_eq_error {e : PlanError} (h : p.plan t = .error e) :
    ∃ r, exec (Planning.tree (t := t) p.config) (.initial t p.config) = (.error e, r) := by
  have hmap : (exec (Planning.tree (t := t) p.config) (.initial t p.config)).1.map _ =
      .error e := h
  exact ⟨_, Prod.ext (Fallible.map_eq_error hmap) rfl⟩

/-- What a run has to do with the plan that is made of it. -/
structure MadeOf (t : PlanningTask) (p : Planner) (g : SearchTree) (r : Run) : Prop where
  round : ∃ r₀, r₀.AtRound t p.config ∧
    exec (Planning.round (t := t) p.config) r₀ = (.ok ⟨⟩, r)
  settled : r.rootSettled = true
  hopeful : r.rootHopeless = false
  pruned : ∃ pruned, Rationality.prune r.tree = .ok (pruned, g.stats.prunedEdges) ∧
    g = { pruned with stats := g.stats }
  cutoffDepth : g.stats.cutoffDepth = r.limit
  iterations : g.stats.iterations = r.iterations
  goalDepth : g.stats.goalDepth = r.goalDepth

/-- A plan has the nodes and the costs of the tree that it is made of. -/
theorem MadeOf.sameCosts {r : Run} (h : MadeOf t p g r) : g.SameCosts r.tree := by
  obtain ⟨pruned, hprune, hg⟩ := h.pruned
  have hstats : g.SameCosts pruned := by
    rw [hg]
    exact ⟨⟨rfl, fun _ => rfl, .refl _⟩, fun _ => rfl, .refl _⟩
  exact hstats.trans (Rationality.sameCosts_of_prune hprune)

/-- How planning ends: deepening fails, or the goal is out of reach, or pruning fails, or else there
is a plan. -/
inductive Ended (t : PlanningTask) (p : Planner) : Except PlanError SearchTree → Prop
  | failed {r : Run} {e : PlanError}
      (h : Run.Deepened t p.config p.config.maxIterations (.initial t p.config) (.error e) r) :
      Ended t p (.error e)
  | hopeless {r : Run}
      (h : Run.Deepened t p.config p.config.maxIterations (.initial t p.config) (.ok ⟨⟩) r)
      (hhopeless : r.rootHopeless = true) : Ended t p (.error (r.unsolvable .goalUnreachable))
  | unpruned {r : Run} {m : ModelError}
      (h : Run.Deepened t p.config p.config.maxIterations (.initial t p.config) (.ok ⟨⟩) r)
      (hprune : Rationality.prune r.tree = .error m) : Ended t p (.error (.model m))
  | planned {r : Run} {g : SearchTree}
      (h : Run.Deepened t p.config p.config.maxIterations (.initial t p.config) (.ok ⟨⟩) r)
      (hmade : MadeOf t p g r) : Ended t p (.ok g)

theorem ended (t : PlanningTask) (p : Planner) : Ended t p (p.plan t) := by
  -- deepening may fail, then there may be no hope, and last pruning may fail
  cases hplan : p.plan t with
  | error e =>
    obtain ⟨r, hexec⟩ := plan_eq_error hplan
    unfold Planning.tree conclude at hexec
    rcases exec_bind_error hexec with hfail | ⟨_, r₁, hdeepen, hrest⟩
    · exact .failed (Run.deepened_of_exec hfail)
    · have hok := Run.deepened_of_exec hdeepen
      rw [exec_bind, exec_get] at hrest
      dsimp only at hrest
      split at hrest
      · next hhopeless =>
        cases hrest
        exact .hopeless hok hhopeless
      · rcases exec_bind_error hrest with hfail | ⟨_, _, _, hdone⟩
        · obtain ⟨m, hprune, rfl⟩ := exec_ofExcept_error hfail
          exact .unpruned hok hprune
        · cases hdone
  | ok g =>
    obtain ⟨tree, r, m, hexec, rfl⟩ := plan_eq_ok hplan
    unfold Planning.tree conclude at hexec
    obtain ⟨_, r₁, hdeepen, hrest⟩ := exec_bind_ok hexec
    have hok := Run.deepened_of_exec hdeepen
    rw [exec_bind, exec_get] at hrest
    dsimp only at hrest
    split at hrest
    · obtain ⟨_, _, hthrow, _⟩ := exec_bind_ok hrest
      cases hthrow
    · next hhopeful =>
      obtain ⟨⟨pruned, count⟩, _, hstep, hdone⟩ := exec_bind_ok hrest
      obtain ⟨hprune, _⟩ := exec_ofExcept_ok hstep
      cases hdone
      obtain ⟨hsettled, hround⟩ := hok.settled_of_ok .initial rfl
      exact .planned hok ⟨hround, hsettled, Bool.eq_false_iff.2 hhopeful, ⟨pruned, hprune, rfl⟩,
        rfl, rfl, rfl⟩

/-- A plan is the pruned tree of a run after its last round. -/
theorem plan_of_run (h : p.plan t = .ok g) : ∃ r, MadeOf t p g r := by
  have hended := ended t p
  rw [h] at hended
  cases hended with
  | planned _ hmade => exact ⟨_, hmade⟩

end Planner

end EpistemicPlanning
