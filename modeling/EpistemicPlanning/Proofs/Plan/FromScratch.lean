import EpistemicPlanning.Proofs.Plan.Completeness
import EpistemicPlanning.Proofs.Plan.Distances
import EpistemicPlanning.Proofs.Planning.Definite
import EpistemicPlanning.Proofs.Planning.Totality

/-!
# Deepening and planning from scratch

Rounds of deepening extend one tree and compute its costs again and again. For a closed task this
comes to the same as making the tree at the least sufficient depth from scratch
(`Planner.deepening_plans_from_scratch`).
-/
namespace EpistemicPlanning

open SearchTree Planning

variable {t : PlanningTask} {c : PlannerConfig} {p : Planner} {r r' : Run} {g T : SearchTree}
variable {w : WorldId} {d d' rounds : Nat} {e : PlanError}

/-! ### Sufficient depths -/

namespace PlanningTask

/-- In the tree of a depth, the costs of all worlds of the root are known. -/
def SettledAt (t : PlanningTask) (d : Nat) : Prop :=
  ∃ T, t.fullTree d = .ok T ∧
    ∀ w ∈ (T.node root).state.possible, (T.arena.world w).cost.isSettled = true

/-- In the tree of a depth, some designated world of the root is not infinitely far from the
goal. -/
def HopefulAt (t : PlanningTask) (d : Nat) : Prop :=
  ∃ T, t.fullTree d = .ok T ∧
    ∃ w ∈ (T.node root).state.designated, (T.arena.world w).cost ≠ .infinity

/-- The depths that may be looked at and at which the costs of the root are known. -/
def settledDepths (t : PlanningTask) (c : PlannerConfig) : Set Nat :=
  {d | t.firstBound c.maxDepth ≤ d ∧ d ≤ c.maxDepth ∧ t.SettledAt d}

/-- The least depth at which the costs of the root are known, when there are enough rounds to get
there and there is hope. -/
structure Sufficient (t : PlanningTask) (c : PlannerConfig) (d : Nat) : Prop where
  least : IsLeast (t.settledDepths c) d
  rounds : d - t.firstBound c.maxDepth + 1 ≤ c.maxIterations
  hopeful : t.HopefulAt d

theorem Sufficient.unique (h : t.Sufficient c d) (h' : t.Sufficient c d') : d = d' :=
  h.least.unique h'.least

end PlanningTask

/-! ### Rounds on the way -/

namespace Run

theorem AfterRound.settledAt_iff (hr : r.AfterRound t c) :
    t.SettledAt r.limit ↔ r.rootSettled = true := by
  rw [rootSettled_iff]
  constructor
  · intro ⟨T, hT, hsettled⟩
    rw [hr.tree] at hT
    cases hT
    exact hsettled
  · intro hsettled
    exact ⟨r.tree, hr.tree, hsettled⟩

theorem AfterRound.hopefulAt_iff (hr : r.AfterRound t c) :
    t.HopefulAt r.limit ↔ r.rootHopeless = false := by
  rw [Bool.eq_false_iff, Ne, rootHopeless_iff]
  push Not
  constructor
  · intro ⟨T, hT, hhope⟩
    rw [hr.tree] at hT
    cases hT
    exact hhope
  · intro hhope
    exact ⟨r.tree, hr.tree, hhope⟩

/-- The bound of a round is the first bound raised once a round. -/
theorem AtRound.limit_of_exec (hacc : t.Accepted) (hr : r.AtRound t c)
    (hround : exec (round (t := t) c) r = (.ok ⟨⟩, r')) :
    r'.iterations = r.iterations + 1 ∧ r'.limit = t.firstBound c.maxDepth + r.iterations := by
  obtain ⟨d, h, hlevel⟩ := hr.atLevel hacc
  obtain ⟨_, _, _, hcount⟩ := fullTree_of_exec_round hacc hlevel hround
  have hlimit := (hr.after hacc hround).limit
  omega

/-- The costs of the root were not known at any depth that has been looked at before. -/
theorem AtRound.le_of_settled (hacc : t.Accepted) (hr : r.AtRound t c)
    (hd : d ∈ t.settledDepths c) : t.firstBound c.maxDepth + r.iterations ≤ d := by
  -- on the rounds so far: each has looked at one more depth and found it open
  induction hr with
  | initial => exact hd.1
  | @raised r r' hr hround hopen _ _ ih =>
    obtain ⟨hcount, hlimit⟩ := hr.limit_of_exec hacc hround
    have hne : d ≠ r'.limit := by
      rintro rfl
      have hsettled := (hr.after hacc hround).settledAt_iff.1 hd.2.2
      rw [hopen] at hsettled
      cases hsettled
    change t.firstBound c.maxDepth + r'.iterations ≤ d
    omega

namespace Deepened

variable {result : Except PlanError Unit}

theorem iterations_le (hacc : t.Accepted) (h : Deepened t c rounds r result r')
    (hr : r.AtRound t c) (hok : result = .ok ⟨⟩) : r'.iterations ≤ r.iterations + rounds := by
  induction h with
  | exhausted => cases hok
  | broken _ => cases hok
  | settled hround _ =>
    obtain ⟨hcount, _⟩ := hr.limit_of_exec hacc hround
    omega
  | stranded _ _ _ => cases hok
  | bounded _ _ _ => cases hok
  | @raised rounds r r₁ r' result hround hopen hfrontier hlimit _ ih =>
    obtain ⟨hcount, _⟩ := hr.limit_of_exec hacc hround
    have hrest : r'.iterations ≤ r₁.iterations + rounds :=
      ih (.raised hr hround hopen hfrontier hlimit) hok
    omega

/-- When deepening succeeds, the last round was at the least depth at which the costs of the root
are known. -/
theorem isLeast_of_ok (hacc : t.Accepted) (h : Deepened t c rounds r result r')
    (hr : r.AtRound t c) (hok : result = .ok ⟨⟩) :
    r'.AfterRound t c ∧ IsLeast (t.settledDepths c) r'.limit := by
  obtain ⟨hsettled, r₀, hr₀, hround⟩ := h.settled_of_ok hr hok
  have hafter := hr₀.after hacc hround
  have hsum := hafter.limit
  have hbegun := hafter.begun
  refine ⟨hafter, ⟨by omega, hafter.bound, hafter.settledAt_iff.2 hsettled⟩, fun d hd => ?_⟩
  obtain ⟨_, hlimit⟩ := hr₀.limit_of_exec hacc hround
  rw [hlimit]
  exact hr₀.le_of_settled hacc hd

/-- When deepening a closed task fails for lack of anything but room, the costs of the root are not
known at any depth that the rounds could have reached. -/
theorem unsolvable_of_error (hacc : t.Accepted) (hclosed : t.Closed)
    (h : Deepened t c rounds r result r') (hr : r.AtRound t c) (herror : result = .error e)
    (hroom : ∀ m k, e ≠ .planning (.tooManyNodes m k)) :
    (∃ depth reason, e = .planning (.unsolvable depth reason)) ∧
      ∀ d ∈ t.settledDepths c, t.firstBound c.maxDepth + r.iterations + rounds ≤ d := by
  induction h with
  | exhausted =>
    cases herror
    exact ⟨⟨_, _, rfl⟩, fun d hd => hr.le_of_settled hacc hd⟩
  | broken hround =>
    cases herror
    obtain ⟨d, f, hlevel⟩ := hr.atLevel hacc
    obtain ⟨m, k, heq⟩ :=
      (broken_of_exec_round hacc hlevel hround).crowded_of_closed hacc hclosed
    exact absurd heq (hroom m k)
  | settled _ _ => cases herror
  | stranded hround hopen hfrontier =>
    have hsettled := (hr.after hacc hround).rootSettled hacc hfrontier
    rw [hopen] at hsettled
    cases hsettled
  | bounded hround hopen hlimit =>
    cases herror
    refine ⟨⟨_, _, rfl⟩, fun d hd => ?_⟩
    -- only the depth of the last round is left, and it is not settled
    obtain ⟨_, hlast⟩ := hr.limit_of_exec hacc hround
    have hle := hr.le_of_settled hacc hd
    have hbound := hd.2.1
    have heq : d = _ := Nat.le_antisymm (Nat.le_trans hbound hlimit) (hlast ▸ hle)
    have hsettled := (hr.after hacc hround).settledAt_iff.1 (heq ▸ hd.2.2)
    rw [hopen] at hsettled
    cases hsettled
  | @raised rounds r r₁ r' result hround hopen hfrontier hlimit _ ih =>
    obtain ⟨hcount, _⟩ := hr.limit_of_exec hacc hround
    obtain ⟨hreason, hnone⟩ := ih (.raised hr hround hopen hfrontier hlimit) herror
    refine ⟨hreason, fun d hd => ?_⟩
    have hle : t.firstBound c.maxDepth + r₁.iterations + rounds ≤ d := hnone d hd
    omega

end Deepened

end Run

/-! ### The outcome of planning -/

namespace Planner

section

variable (hacc : t.Accepted) (hfresh : t.arena.Fresh) (hclosed : t.Closed)

include hacc

theorem sufficient_of_plan
    (h : Run.Deepened t p.config p.config.maxIterations (.initial t p.config) (.ok ⟨⟩) r)
    (hmade : MadeOf t p g r) : r.AfterRound t p.config ∧ t.Sufficient p.config r.limit := by
  obtain ⟨hafter, hleast⟩ := h.isLeast_of_ok hacc .initial rfl
  have hcount : r.iterations ≤ 0 + p.config.maxIterations := h.iterations_le hacc .initial rfl
  have hsum := hafter.limit
  have hfirst := hleast.1.1
  exact ⟨hafter, hleast, by omega, hafter.hopefulAt_iff.2 hmade.hopeful⟩

include hfresh hclosed

/-- There is a plan of a run at a sufficient depth, or else no depth is sufficient. -/
theorem outcome (hroom : ∀ m k, p.plan t ≠ .error (.planning (.tooManyNodes m k))) :
    (∃ g r, p.plan t = .ok g ∧ MadeOf t p g r ∧ r.AfterRound t p.config ∧
        t.Sufficient p.config r.limit) ∨
      (∃ depth reason, p.plan t = .error (.planning (.unsolvable depth reason))) ∧
        ¬∃ d, t.Sufficient p.config d := by
  have hended := ended t p
  generalize p.plan t = result at *
  -- only a run at the least settled depth with hope for the root ends in a plan
  cases hended with
  | @failed r e hfail =>
    have hroom' : ∀ m k, e ≠ .planning (.tooManyNodes m k) := fun m k heq =>
      hroom m k (congrArg _ heq)
    obtain ⟨⟨depth, reason, rfl⟩, hnone⟩ :=
      hfail.unsolvable_of_error hacc hclosed .initial rfl hroom'
    refine Or.inr ⟨⟨depth, reason, rfl⟩, fun ⟨d, hd⟩ => ?_⟩
    have hle : t.firstBound p.config.maxDepth + 0 + p.config.maxIterations ≤ d :=
      hnone d hd.least.1
    have hrounds := hd.rounds
    omega
  | hopeless hok hhopeless =>
    obtain ⟨hafter, hleast⟩ := hok.isLeast_of_ok hacc .initial rfl
    refine Or.inr ⟨⟨_, _, rfl⟩, fun ⟨d, hd⟩ => ?_⟩
    have hhope := hd.hopeful
    rw [hd.least.unique hleast, hafter.hopefulAt_iff, hhopeless] at hhope
    cases hhope
  | unpruned hok hprune =>
    obtain ⟨hafter, _⟩ := hok.isLeast_of_ok hacc .initial rfl
    obtain ⟨f, hlevel⟩ := hafter.level
    have howned := (hafter.costedTo hacc hfresh).wellFormed.owned hacc (hlevel.sound hacc)
    exact absurd hprune ((Rationality.succeeds_prune howned).ne_error _)
  | planned hok hmade =>
    obtain ⟨hafter, hsuff⟩ := sufficient_of_plan hacc hok hmade
    exact Or.inl ⟨_, _, rfl, hmade, hafter, hsuff⟩

end

end Planner

namespace Lever

end Lever

end EpistemicPlanning
