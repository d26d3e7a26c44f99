import EpistemicPlanning.Proofs.Lever
import EpistemicPlanning.Proofs.Planning.Deepening
import EpistemicPlanning.Proofs.Planning.Definite
import EpistemicPlanning.Proofs.Planning.Mishaps

/-!
# An empty frontier

A cost is provisional only for what lies below the frontier. When nothing is left in the frontier
after a round, all costs are therefore known, and planning is never given up for want of nodes to
expand (`Planner.plan_settles_without_frontier`).
-/
namespace EpistemicPlanning

open SearchTree Induction Planning

variable {t : PlanningTask} {c : PlannerConfig} {r r' : Run} {n : NodeId} {w : WorldId}
variable {rounds d : Nat}

namespace Run

/-- Deepening is not given up with an empty frontier: a round that fails does so elsewhere, and
after one that succeeds the costs of the root are known. -/
theorem Deepened.ne_provisionalWithoutFrontier {result : Except PlanError Unit} (hacc : t.Accepted)
    (hd : Deepened t c rounds r result r') (hr : r.AtRound t c) :
    result ≠ .error (.planning (.unsolvable d .provisionalWithoutFrontier)) := by
  induction hd with
  | exhausted => exact fun heq => nomatch heq
  | broken hround =>
    obtain ⟨d, h, hlevel⟩ := hr.atLevel hacc
    have hmodel := (broken_of_exec_round hacc hlevel hround).not_unsolvable
    intro heq
    cases heq
    cases hmodel
  | settled _ _ => exact fun heq => nomatch heq
  | stranded hround hopen hfrontier =>
    have hsettled := (hr.after hacc hround).rootSettled hacc hfrontier
    rw [hopen] at hsettled
    cases hsettled
  | bounded _ _ _ => exact fun heq => nomatch heq
  | raised hround hopen hfrontier hlimit _ ih =>
    exact ih (.raised hr hround hopen hfrontier hlimit)

end Run

namespace Planner

/-- What every round leaves of the costs, and what that means for giving up. -/
structure SettlesWithoutFrontier (t : PlanningTask) : Prop where
  /-- After a round every world of every node has a cost. -/
  defined : ∀ c r₀ r, r₀.AtRound t c → exec (round (t := t) c) r₀ = (.ok ⟨⟩, r) →
    ∀ n, n.index < r.tree.size → ∀ w ∈ (r.tree.node n).state.possible,
      (r.tree.arena.world w).cost ≠ .undefined
  /-- If the frontier is empty, no cost of a world of a node is provisional. -/
  definite : ∀ c r₀ r, r₀.AtRound t c → exec (round (t := t) c) r₀ = (.ok ⟨⟩, r) →
    r.frontier = [] → ∀ n, n.index < r.tree.size → ∀ w ∈ (r.tree.node n).state.possible,
      (r.tree.arena.world w).cost.isProvisional = false
  /-- If the frontier is empty, the costs of the root are known. -/
  settled : ∀ c r₀ r, r₀.AtRound t c → exec (round (t := t) c) r₀ = (.ok ⟨⟩, r) →
    r.frontier = [] → r.rootSettled = true
  /-- Planning never ends with provisional costs and an empty frontier. -/
  never_stranded : ∀ p d,
    Planner.plan p t ≠ .error (.planning (.unsolvable d .provisionalWithoutFrontier))

theorem plan_settles_without_frontier (hacc : t.Accepted) : SettlesWithoutFrontier t where
  defined _ _ _ hr₀ hround _ hn _ hw := (hr₀.after hacc hround).defined hacc hn hw
  definite _ _ _ hr₀ hround hfrontier _ _ w _ := (hr₀.after hacc hround).definite hacc hfrontier w
  settled _ _ _ hr₀ hround hfrontier := (hr₀.after hacc hround).rootSettled hacc hfrontier
  never_stranded p d hplan := by
    have hended := ended t p
    rw [hplan] at hended
    generalize hresult : (.error (.planning (.unsolvable d .provisionalWithoutFrontier)) :
      Except PlanError SearchTree) = result at hended
    cases hended with
    | failed hfail =>
      cases hresult
      exact hfail.ne_provisionalWithoutFrontier hacc .initial rfl
    | hopeless _ _ => cases hresult
    | unpruned _ _ => cases hresult
    | planned _ _ => cases hresult

end Planner

namespace Lever

/-- The lever when it can be pulled to the left once only: it then rests where it is. -/
def stiff : PlanningTask :=
  ⟨predicates, arena, initial, [Fallible.get (Action.ofSteps "pull_left" left
    [move 1 0, move 2 1, .designateAll, .observer left, .observer right]) (by decide)],
    .atom (position 0)⟩

theorem stiff_accepted : stiff.Accepted := ⟨accepted.wellFormed, rfl⟩

/-- The run for the stiff lever after its first round. -/
def stiffFirst : Run :=
  (exec (round (t := stiff) planner.config) (.initial stiff planner.config)).2

/-- The run for the stiff lever after its second round. -/
def stiffSecond : Run :=
  (exec (round (t := stiff) planner.config) { stiffFirst with limit := stiffFirst.limit + 1 }).2

theorem stiffFirst_raised :
    ({ stiffFirst with limit := stiffFirst.limit + 1 } : Run).AtRound stiff planner.config :=
  .raised .initial (exec_eq_of_ok (by decide +kernel)) (by decide +kernel) (by decide +kernel)
    (by decide +kernel)

/-- The first round leaves the rightmost world provisionally two steps from the goal. In the second
round nothing is left to expand, and the goal turns out to be out of its reach. -/
theorem stiff_settles : Planner.SettlesWithoutFrontier stiff ∧
    ({ stiffFirst with limit := stiffFirst.limit + 1 } : Run).AtRound stiff planner.config ∧
      exec (round (t := stiff) planner.config)
        { stiffFirst with limit := stiffFirst.limit + 1 } = (.ok ⟨⟩, stiffSecond) ∧
      stiffSecond.frontier = [] ∧ stiffSecond.tree.size = 2 ∧
      (stiffFirst.tree.arena.world (world 2)).cost = .provisional 2 ∧
      (stiffSecond.tree.arena.world (world 2)).cost = .infinity :=
  ⟨Planner.plan_settles_without_frontier stiff_accepted, stiffFirst_raised,
    exec_eq_of_ok (by decide +kernel), by decide +kernel, by decide +kernel, by decide +kernel,
    by decide +kernel⟩

end Lever

end EpistemicPlanning
