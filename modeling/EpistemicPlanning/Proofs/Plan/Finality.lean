import EpistemicPlanning.Proofs.Plan.Distances
import EpistemicPlanning.Proofs.Planning.Deeper
import EpistemicPlanning.Proofs.Planning.Mishaps

/-!
# Costs that are final

Raising the bound on the depth does not change costs that are known, and provisional costs are lower
bounds of what they become. Where a cost is infinite, no deeper search finds a goal world
(`Planner.deepening_refines_costs`).
-/
namespace EpistemicPlanning

open SearchTree Planning

variable {t : PlanningTask} {c : PlannerConfig} {p : Planner} {r r' : Run} {g h T T' : SearchTree}
variable {w : WorldId} {d d' rounds : Nat} {i : UInt32}

/-! ### Costs at two depths -/

namespace SearchTree

namespace Deepens

theorem settled_deep (hdeep : Deepens t d T T') (hT : T.CostedTo t d) (hT' : T'.CostedTo t d')
    (hcost : (T.arena.world w).cost = .settled i) : (T'.arena.world w).cost = .settled i := by
  obtain ⟨n, hn, hw⟩ := hT.exists_node (by rw [hcost]; exact Cost.noConfusion)
  obtain ⟨m, hleast, hi⟩ := (hT.summary hn hw).eq_settled_iff.1 hcost
  refine (hT'.summary (hdeep.in_deep hn) (hdeep.mem_deep hn hw)).eq_settled_iff.2 ?_
  exact ⟨m, hdeep.isLeast_deep hn hw hleast, hi⟩

theorem infinity_deep (hdeep : Deepens t d T T') (hT : T.CostedTo t d) (hT' : T'.CostedTo t d')
    (hlt : d < d') (hcost : (T.arena.world w).cost = .infinity) :
    (T'.arena.world w).cost = .infinity := by
  obtain ⟨n, hn, hw⟩ := hT.exists_node (by rw [hcost]; exact Cost.noConfusion)
  obtain ⟨hnone, hclosed⟩ := (hT.summary hn hw).eq_infinity_iff.1 hcost
  refine (hT'.summary (hdeep.in_deep hn) (hdeep.mem_deep hn hw)).eq_infinity_iff.2 ⟨?_, ?_⟩
  · exact hdeep.goalDistances_of_hopeless hT.costed hn hw hnone hclosed
  · exact hdeep.not_reachesOpen_of_hopeless hT.costed hn hw hnone hclosed hlt

/-- A provisional cost becomes the bound of the deeper search, the distance to a goal world below
the cut, or infinite. -/
theorem provisional_deep (hdeep : Deepens t d T T') (hT : T.CostedTo t d) (hT' : T'.CostedTo t d')
    (hcost : (T.arena.world w).cost = .provisional i) :
    ∃ n, n.index < T.size ∧ (T.node n).depth ≤ d ∧
      i = Cost.saturated (d - (T.node n).depth + 1) ∧
      ((T'.arena.world w).cost = .provisional (Cost.saturated (d' - (T.node n).depth + 1)) ∧
          d' - (T.node n).depth < T'.arena.worlds.size ∨
        (∃ m, d < (T.node n).depth + m ∧ (T.node n).depth + m ≤ d' ∧
          (T'.arena.world w).cost = .settled (Cost.saturated m)) ∨
        (T'.arena.world w).cost = .infinity) := by
  obtain ⟨n, hn, hw⟩ := hT.exists_node (by rw [hcost]; exact Cost.noConfusion)
  obtain ⟨hnone, _, hi⟩ := (hT.summary hn hw).eq_provisional_iff.1 hcost
  have hn' := hdeep.in_deep hn
  have hw' := hdeep.mem_deep hn hw
  have hsummary := hT'.summary hn' hw'
  rw [hdeep.later.depth hn] at hsummary
  refine ⟨n, hn, hT.depth n hn, hi, ?_⟩
  cases hcost' : (T'.arena.world w).cost with
  | undefined =>
    rw [hcost'] at hsummary
    cases hsummary
  | infinity => exact Or.inr (Or.inr rfl)
  | finite j provisional =>
    cases provisional with
    | true =>
      obtain ⟨_, ⟨es, v, hc, m, hm, hleaf, hv, _⟩, rfl⟩ := hsummary.eq_provisional_iff.1 hcost'
      refine Or.inl ⟨rfl, ?_⟩
      have hlt := hT'.wellFormed.length_lt_size hn' hw' hc
      obtain ⟨m', hm', hv', hdepth⟩ := hT'.wellFormed.exists_node_of_chain hn' hw' hc
      obtain rfl := hT'.wellFormed.apart m m' hm hm' v hv hv'
      rw [hdeep.later.depth hn] at hdepth
      omega
    | false =>
      obtain ⟨m, hleast, rfl⟩ := hsummary.eq_settled_iff.1 hcost'
      -- no goal world was within reach above the cut, so this one is below
      have hlow := hdeep.lt_of_mem_goalDistances hn hw hnone hleast.1
      obtain ⟨es, v, hc, rfl, _⟩ := hleast.1
      obtain ⟨m', hm', _, hdepth⟩ := hT'.wellFormed.exists_node_of_chain hn' hw' hc
      have hle := hT'.depth m' hm'
      rw [hdeep.later.depth hn] at hdepth
      exact Or.inr (Or.inl ⟨es.length, hlow, by omega, rfl⟩)

end Deepens

end SearchTree

/-! ### Costs in two rounds -/

namespace Run

/-- The planner has ended a round with the first run, and the next round with the second. -/
def Precedes (t : PlanningTask) (c : PlannerConfig) (r r' : Run) : Prop :=
  ∃ r₀, r₀.AtRound t c ∧ exec (round (t := t) c) r₀ = (.ok ⟨⟩, r) ∧ r.rootSettled = false ∧
    r.frontier ≠ [] ∧ r.limit < c.maxDepth ∧
    exec (round (t := t) c) { r with limit := r.limit + 1 } = (.ok ⟨⟩, r')

theorem AfterRound.deepens (hacc : t.Accepted) (hfresh : t.arena.Fresh) (hr : r.AfterRound t c)
    (hle : r.limit ≤ d) (hh : t.unfoldTo d = .ok h) (hs : g.SameShape h) :
    Deepens t r.limit r.tree g := by
  obtain ⟨f, hlevel⟩ := hr.level
  exact deepens_of_unfoldTo hacc hfresh hle hlevel.unfolds hh hlevel.sameShape hs

theorem Precedes.after (hacc : t.Accepted) (hrr : Precedes t c r r') :
    r.AfterRound t c ∧ r'.AfterRound t c ∧ r'.limit = r.limit + 1 := by
  obtain ⟨r₀, hr₀, hround, _, _, hlimit, hround'⟩ := hrr
  have hr := hr₀.after hacc hround
  obtain ⟨hr', hlimit'⟩ := hr.raised hacc hlimit hround'
  exact ⟨hr, hr', hlimit'⟩

/-- Where the cost is infinite, the goal is out of reach in a deeper tree. -/
theorem AfterRound.goalDistances_of_infinity (hacc : t.Accepted) (hfresh : t.arena.Fresh)
    (hr : r.AfterRound t c) (hcost : (r.tree.arena.world w).cost = .infinity) (hle : r.limit ≤ d)
    (hh : t.unfoldTo d = .ok h) (hs : g.SameShape h) : g.goalDistances t w = ∅ := by
  have hT := hr.costedTo hacc hfresh
  obtain ⟨n, hn, hw⟩ := hT.exists_node (by rw [hcost]; exact Cost.noConfusion)
  obtain ⟨hnone, hclosed⟩ := (hT.summary hn hw).eq_infinity_iff.1 hcost
  have hdeep := hr.deepens hacc hfresh hle hh hs
  exact hdeep.goalDistances_of_hopeless hT.costed hn hw hnone hclosed

/-- In a tree that was not deeper, the goal is out of reach as well. -/
theorem AfterRound.goalDistances_root (hacc : t.Accepted) (hfresh : t.arena.Fresh)
    (hr : r.AfterRound t c) (hw : w ∈ t.initial.possible)
    (hcost : (r.tree.arena.world w).cost = .infinity) (hh : t.unfoldTo d = .ok h)
    (hs : g.SameShape h) : g.goalDistances t w = ∅ := by
  -- one of the two trees is a part of the other
  by_cases hle : r.limit ≤ d
  · exact hr.goalDistances_of_infinity hacc hfresh hcost hle hh hs
  · obtain ⟨f, hlevel⟩ := hr.level
    have hdeep := deepens_of_unfoldTo hacc hfresh (Nat.le_of_not_le hle) hh hlevel.unfolds hs
      hlevel.sameShape
    have hnone := hr.goalDistances_of_infinity hacc hfresh hcost (Nat.le_refl _) hlevel.unfolds
      hlevel.sameShape
    obtain ⟨hroot, hposs, _⟩ := PlanningTask.root_of_unfoldTo hacc hh hs
    refine Set.eq_empty_iff_forall_notMem.2 fun k hk => ?_
    have hk' := hdeep.goalDistances_deep hroot (hposs ▸ hw) hk
    rw [hnone] at hk'
    exact hk'

end Run

/-! ### Giving up -/

theorem Run.Deepened.ne_goalUnreachable {result : Except PlanError Unit} (hacc : t.Accepted)
    (hd : Run.Deepened t c rounds r result r') (hr : r.AtRound t c) :
    result ≠ .error (.planning (.unsolvable d .goalUnreachable)) := by
  induction hd with
  | exhausted => exact fun heq => nomatch heq
  | broken hround =>
    obtain ⟨d, h, hlevel⟩ := hr.atLevel hacc
    have hmodel := (broken_of_exec_round hacc hlevel hround).not_unsolvable
    intro heq
    cases heq
    cases hmodel
  | settled _ _ => exact fun heq => nomatch heq
  | stranded _ _ _ => exact fun heq => nomatch heq
  | bounded _ _ _ => exact fun heq => nomatch heq
  | raised hround hopen hfrontier hlimit _ ih =>
    exact ih (.raised hr hround hopen hfrontier hlimit)

/-- The planner finds the goal to be out of reach after a round only. -/
theorem Planner.hopeless_of_goalUnreachable (hacc : t.Accepted)
    (h : p.plan t = .error (.planning (.unsolvable d .goalUnreachable))) :
    ∃ r : Run, r.AfterRound t p.config ∧ r.rootHopeless = true := by
  have hended := Planner.ended t p
  rw [h] at hended
  generalize hresult : (.error (.planning (.unsolvable d .goalUnreachable)) :
    Except PlanError SearchTree) = result at hended
  cases hended with
  | failed hfail =>
    cases hresult
    exact absurd rfl (hfail.ne_goalUnreachable hacc .initial)
  | hopeless hok hhopeless =>
    obtain ⟨_, r₀, hr₀, hround⟩ := hok.settled_of_ok .initial rfl
    exact ⟨_, hr₀.after hacc hround, hhopeless⟩
  | unpruned _ _ => cases hresult
  | planned _ _ => cases hresult

theorem Run.cost_of_rootHopeless (hacc : t.Accepted) (hr : r.AfterRound t c)
    (hhopeless : r.rootHopeless = true) (hw : w ∈ t.initial.designated) :
    (r.tree.arena.world w).cost = .infinity := by
  obtain ⟨h, hlevel⟩ := hr.level
  obtain ⟨_, _, hdes⟩ := PlanningTask.root_of_unfoldTo hacc hlevel.unfolds hlevel.sameShape
  rw [rootHopeless_iff, hdes] at hhopeless
  exact hhopeless w hw

/-- A plan has a goal world within reach of a designated world of its root. -/
theorem Planner.exists_goal_of_plan (hacc : t.Accepted) (hfresh : t.arena.Fresh)
    (h : p.plan t = .ok g) : ∃ (d : Nat) (f T : SearchTree) (w : WorldId), t.unfoldTo d = .ok f ∧
      T.SameShape f ∧ w ∈ t.initial.designated ∧ (T.goalDistances t w).Nonempty := by
  obtain ⟨r, hmade⟩ := plan_of_run h
  obtain ⟨r₀, hstart, hround⟩ := hmade.round
  have hr := hstart.after hacc hround
  have hT := hr.costedTo hacc hfresh
  obtain ⟨f, hlevel⟩ := hr.level
  obtain ⟨hroot, hposs, hdes⟩ := PlanningTask.root_of_unfoldTo hacc hlevel.unfolds hlevel.sameShape
  have hhopeful := hmade.hopeful
  rw [Bool.eq_false_iff, Ne, Run.rootHopeless_iff, hdes] at hhopeful
  push Not at hhopeful
  obtain ⟨w, hw, hcost⟩ := hhopeful
  have hmem : w ∈ (r.tree.node SearchTree.root).state.possible :=
    hposs ▸ hacc.wellFormed.designated_possible w hw
  rcases Cost.isSettled_iff.1 (Run.rootSettled_iff.1 hmade.settled w hmem) with hinf | ⟨k, hk⟩
  · exact absurd hinf hcost
  · obtain ⟨m, hleast, _⟩ := (hT.summary hroot hmem).eq_settled_iff.1 hk
    exact ⟨r.limit, f, r.tree, w, hlevel.unfolds, hlevel.sameShape, hw, m, hleast.1⟩

/-! ### All together -/

/-- What raising the bound on the depth does to costs. -/
structure CostsRefine (t : PlanningTask) (p : Planner) : Prop where
  /-- A cost that is known after a round, infinite or not, is the same after the next. -/
  settled : ∀ r r', Run.Precedes t p.config r r' → ∀ w,
    (r.tree.arena.world w).cost.isSettled = true →
      (r'.tree.arena.world w).cost = (r.tree.arena.world w).cost
  /-- A provisional cost grows by one, becomes known, or becomes infinite. -/
  provisional : ∀ r r', Run.Precedes t p.config r r' → ∀ w i,
    (r.tree.arena.world w).cost = .provisional i →
      (r'.tree.arena.world w).cost = (Cost.provisional i).successor ∨
        (r'.tree.arena.world w).cost = .settled i ∨ (r'.tree.arena.world w).cost = .infinity
  /-- Unless there are more worlds than numbers of steps, growing by one is exact. -/
  exact : ∀ r r', Run.Precedes t p.config r r' → r'.tree.arena.worlds.size < UInt32.size →
    ∀ w i, (r.tree.arena.world w).cost = .provisional i →
      (∃ j, (r'.tree.arena.world w).cost = .provisional j ∧ j.toNat = i.toNat + 1) ∨
        (r'.tree.arena.world w).cost = .settled i ∨ (r'.tree.arena.world w).cost = .infinity
  /-- Where a cost is infinite after a round, no goal world descends at any greater depth. -/
  hopeless : ∀ r₀ r, r₀.AtRound t p.config →
    exec (round (t := t) p.config) r₀ = (.ok ⟨⟩, r) → ∀ w,
      (r.tree.arena.world w).cost = .infinity → ∀ d g, r.limit ≤ d → t.unfoldTo d = .ok g →
        g.goalDistances t w = ∅
  /-- When the goal is given up as unreachable, it is unreachable at all depths, and no planner
  makes a plan. -/
  unreachable : ∀ d, p.plan t = .error (.planning (.unsolvable d .goalUnreachable)) →
    (∀ d g, t.unfoldTo d = .ok g → ∀ w ∈ t.initial.designated, g.goalDistances t w = ∅) ∧
      ∀ p' g, Planner.plan p' t ≠ .ok g

namespace Run.Precedes

theorem deepens (hacc : t.Accepted) (hfresh : t.arena.Fresh) (hrr : Precedes t c r r') :
    Deepens t r.limit r.tree r'.tree ∧ r.tree.CostedTo t r.limit ∧
      r'.tree.CostedTo t (r.limit + 1) := by
  obtain ⟨hr, hr', hlimit⟩ := hrr.after hacc
  obtain ⟨h', hlevel'⟩ := hr'.level
  rw [← hlimit]
  refine ⟨?_, hr.costedTo hacc hfresh, hr'.costedTo hacc hfresh⟩
  exact hr.deepens hacc hfresh (by omega) hlevel'.unfolds hlevel'.sameShape

theorem settled (hacc : t.Accepted) (hfresh : t.arena.Fresh) (hrr : Precedes t c r r')
    (hcost : (r.tree.arena.world w).cost.isSettled = true) :
    (r'.tree.arena.world w).cost = (r.tree.arena.world w).cost := by
  obtain ⟨hdeep, hT, hT'⟩ := hrr.deepens hacc hfresh
  rcases Cost.isSettled_iff.1 hcost with hinf | ⟨k, hk⟩
  · rw [hinf, hdeep.infinity_deep hT hT' (Nat.lt_succ_self _) hinf]
  · rw [hk, hdeep.settled_deep hT hT' hk]

/-- The cost that a provisional cost becomes after the next round, in numbers of steps. -/
theorem provisional (hacc : t.Accepted) (hfresh : t.arena.Fresh) (hrr : Precedes t c r r')
    (hcost : (r.tree.arena.world w).cost = .provisional i) :
    ∃ m, i = Cost.saturated m ∧
      ((r'.tree.arena.world w).cost = .provisional (Cost.saturated (m + 1)) ∧
          m < r'.tree.arena.worlds.size ∨
        (r'.tree.arena.world w).cost = .settled i ∨ (r'.tree.arena.world w).cost = .infinity) := by
  obtain ⟨hdeep, hT, hT'⟩ := hrr.deepens hacc hfresh
  obtain ⟨n, _, hle, hi, hcases⟩ := hdeep.provisional_deep hT hT' hcost
  have hstep : r.limit + 1 - (r.tree.node n).depth = r.limit - (r.tree.node n).depth + 1 := by
    omega
  rw [hstep] at hcases
  refine ⟨_, hi, ?_⟩
  rcases hcases with hprov | ⟨m, hlow, hhigh, hm⟩ | hinf
  · exact Or.inl hprov
  · have hlength : m = r.limit - (r.tree.node n).depth + 1 := by omega
    rw [hm, hi, hlength]
    exact Or.inr (Or.inl rfl)
  · exact Or.inr (Or.inr hinf)

end Run.Precedes

/-- Settled costs are final and provisional costs are lower bounds, however the search is
configured. -/
theorem Planner.deepening_refines_costs (hacc : t.Accepted) (hfresh : t.arena.Fresh) :
    CostsRefine t p where
  settled _ _ hrr _ hcost := hrr.settled hacc hfresh hcost
  provisional _ _ hrr w i hcost := by
    obtain ⟨m, rfl, hcases⟩ := hrr.provisional hacc hfresh hcost
    have hsucc : (Cost.provisional (Cost.saturated m)).successor =
        .provisional (Cost.saturated (m + 1)) := Cost.successor_saturated true
    rw [hsucc]
    exact hcases.imp_left And.left
  exact _ _ hrr hsmall w i hcost := by
    obtain ⟨m, rfl, hcases⟩ := hrr.provisional hacc hfresh hcost
    refine hcases.imp_left fun ⟨hprov, hlt⟩ => ⟨_, hprov, ?_⟩
    rw [Cost.toNat_saturated_of_lt (by omega), Cost.toNat_saturated_of_lt (by omega)]
  hopeless _ _ hr₀ hround _ hcost _ _ hle hg :=
    (hr₀.after hacc hround).goalDistances_of_infinity hacc hfresh hcost hle hg (.refl _)
  unreachable d hplan := by
    obtain ⟨r, hr, hhopeless⟩ := hopeless_of_goalUnreachable hacc hplan
    have hnone : ∀ {d : Nat} {h g : SearchTree}, t.unfoldTo d = .ok h → g.SameShape h →
        ∀ w ∈ t.initial.designated, g.goalDistances t w = ∅ := by
      intro d h g hh hs w hw
      have hcost := Run.cost_of_rootHopeless hacc hr hhopeless hw
      exact hr.goalDistances_root hacc hfresh (hacc.wellFormed.designated_possible w hw) hcost hh hs
    refine ⟨fun d g hg => hnone hg (.refl _), fun p' g hplan' => ?_⟩
    obtain ⟨d, h, T, w, hh, hs, hw, hgoal⟩ := exists_goal_of_plan hacc hfresh hplan'
    rw [hnone hh hs w hw] at hgoal
    exact Set.not_nonempty_empty hgoal

namespace Lever

/-- The run for the lever after its first round. -/
def firstRound : Run := (exec (round (t := task) planner.config) (.initial task planner.config)).2

/-- The run for the lever after its second round. -/
def secondRound : Run :=
  (exec (round (t := task) planner.config) { firstRound with limit := firstRound.limit + 1 }).2

theorem rounds_precede : Run.Precedes task planner.config firstRound secondRound := by
  have hfirst : exec (round (t := task) planner.config) (.initial task planner.config) =
      (.ok ⟨⟩, firstRound) := exec_eq_of_ok (by decide +kernel)
  have hsecond : exec (round (t := task) planner.config)
      { firstRound with limit := firstRound.limit + 1 } = (.ok ⟨⟩, secondRound) :=
    exec_eq_of_ok (by decide +kernel)
  exact ⟨_, .initial, hfirst, by decide +kernel, by decide +kernel, by decide +kernel, hsecond⟩

/-- The first round leaves the rightmost world two steps from the goal at least, and in the second
round it turns out to be just two. -/
theorem rounds_refine : CostsRefine task planner ∧
    Run.Precedes task planner.config firstRound secondRound ∧
      (firstRound.tree.arena.world (world 2)).cost = .provisional 2 ∧
        (secondRound.tree.arena.world (world 2)).cost = .settled 2 :=
  ⟨Planner.deepening_refines_costs accepted fresh, rounds_precede, by decide +kernel,
    by decide +kernel⟩

end Lever

end EpistemicPlanning
