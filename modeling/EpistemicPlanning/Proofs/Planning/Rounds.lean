import EpistemicPlanning.Planning.Deepening
import EpistemicPlanning.Proofs.Planning.Costing
import EpistemicPlanning.Proofs.Planning.Levels

/-!
# Rounds of planning

A round grows the tree to the bound and computes all costs. Whatever the rounds before it did, it
ends with the tree that is made from scratch (`PlanningTask.fullTree`), and the bound of the first
round is the first level below the root with a goal world (`Run.AfterRound`).
-/
namespace EpistemicPlanning

open SearchTree

variable {t : PlanningTask} {c : PlannerConfig} {r r' r₁ : Run} {g h T : SearchTree}
variable {d bound rounds : Nat}

namespace PlanningTask

/-- The tree of all applicable actions cut at a depth, with the costs of backward induction. -/
def fullTree (t : PlanningTask) (d : Nat) : Except ModelError SearchTree :=
  t.unfoldTo d >>= fun g => g.withCosts t d

/-- The first depth below the root and down to the bound at which there is a goal world. -/
def goalDepth? (t : PlanningTask) (bound : Nat) : Option Nat :=
  (List.range' 1 bound).find? t.hasGoalAt

/-- The depth from which the tree is deepened. -/
def firstBound (t : PlanningTask) (bound : Nat) : Nat := (t.goalDepth? bound).getD bound

theorem goalDepth?_eq_some :
    t.goalDepth? bound = some d ↔
      1 ≤ d ∧ d ≤ bound ∧ t.hasGoalAt d = true ∧ ∀ j, 1 ≤ j → j < d → t.hasGoalAt j = false := by
  have hnot : ∀ j, !t.hasGoalAt j ↔ t.hasGoalAt j = false := fun j => by simp
  unfold goalDepth?
  rw [List.find?_range'_eq_some]
  simp only [List.mem_range'_1, hnot]
  constructor
  · intro ⟨hgoal, ⟨hle, hlt⟩, hnone⟩
    exact ⟨hle, by omega, hgoal, hnone⟩
  · intro ⟨hle, hbound, hgoal, hnone⟩
    exact ⟨hgoal, ⟨hle, by omega⟩, hnone⟩

theorem goalDepth?_eq_none :
    t.goalDepth? bound = none ↔ ∀ j, 1 ≤ j → j ≤ bound → t.hasGoalAt j = false := by
  unfold goalDepth?
  rw [List.find?_eq_none]
  simp only [List.mem_range'_1, Bool.not_eq_true]
  constructor
  · intro h j hle hbound
    exact h j ⟨hle, by omega⟩
  · intro h j hj
    exact h j hj.1 (by omega)

/-- A tree made from scratch is well formed, ends at its depth, and has its costs. -/
theorem costedTo_of_fullTree (hacc : t.Accepted) (hfresh : t.arena.Fresh)
    (hT : t.fullTree d = .ok T) : T.CostedTo t d := by
  obtain ⟨g, hg, hcosts⟩ := Fallible.bind_eq_ok hT
  obtain ⟨k, hcut⟩ := cutAt_of_unfoldTo hacc hg
  have hshape := sameShape_withCosts hcosts
  have hwf := hcut.unfolding.wellFormed hacc hfresh
  refine ⟨hwf.of_sameShape hshape.symm, fun n hn => ?_, costed_withCosts hwf hcosts⟩
  rw [hshape.depth]
  exact hcut.depth_le (hshape.size ▸ hn)

end PlanningTask

namespace Planning

/-- Grows the tree to the bound and computes all costs. -/
def round (c : PlannerConfig) : Planning t Unit := do
  modify fun run => { run with iterations := run.iterations + 1 }
  grow c
  settle

theorem exec_settle_ok (hexec : exec (settle (t := t)) r = (.ok ⟨⟩, r')) :
    ∃ tree, r.tree.withCosts t r.limit = .ok tree ∧ r' = { r with tree } := by
  unfold settle at hexec
  obtain ⟨_, _, hget, hexec⟩ := exec_bind_ok hexec
  cases hget
  obtain ⟨sss, _, hask, hexec⟩ := exec_bind_ok hexec
  obtain ⟨hvalue, hsame⟩ := exec_ofUpdating_ok hask
  rw [hsame] at hexec
  cases hexec
  refine ⟨_, ?_, rfl⟩
  unfold withCosts
  rw [hvalue]
  rfl

/-- A round ends with the tree made from scratch. -/
theorem fullTree_of_exec_round (hacc : t.Accepted) (hr : r.AtLevel t d h)
    (hexec : exec (round (t := t) c) r = (.ok ⟨⟩, r')) :
    t.fullTree r'.limit = .ok r'.tree ∧ (∃ h', r'.AtLevel t r'.limit h') ∧ r.Finds t d r' ∧
      r'.iterations = r.iterations + 1 := by
  unfold round at hexec
  obtain ⟨_, _, hcount, hexec⟩ := exec_bind_ok hexec
  cases hcount
  obtain ⟨_, r₁, hgrow, hexec⟩ := exec_bind_ok hexec
  have hbegun : ({ r with iterations := r.iterations + 1 } : Run).AtLevel t d h :=
    hr.congr rfl rfl (Nat.le_refl _)
  obtain ⟨⟨h₁, hr₁⟩, hfinds, hiterations⟩ := atLevel_of_exec_grow hacc hbegun hgrow
  obtain ⟨tree, htree, rfl⟩ := exec_settle_ok hexec
  refine ⟨?_, ⟨h₁, hr₁.congr (uncosted_withCosts htree) rfl (Nat.le_refl _)⟩, ?_, hiterations⟩
  · change t.fullTree r₁.limit = .ok tree
    rw [PlanningTask.fullTree, hr₁.unfolds, ← htree, withCosts_congr hr₁.tree]
    rfl
  · cases hfinds with
    | before hfound hgoal hlimit => exact .before hfound hgoal hlimit
    | nowhere hfound hgoal hlimit hnone => exact .nowhere hfound hgoal hlimit hnone
    | first hfound hgoal hbelow hbound hhere habove =>
      exact .first hfound hgoal hbelow hbound hhere habove

/-- What follows a round: the end, or a round with a higher bound. -/
theorem exec_deepen_succ :
    exec (deepen (t := t) c (rounds + 1)) r =
      match exec (round (t := t) c) r with
      | (.error e, r₁) => (.error e, r₁)
      | (.ok _, r₁) =>
        if r₁.rootSettled then (.ok ⟨⟩, r₁)
        else if r₁.frontier.isEmpty then (.error (r₁.unsolvable .provisionalWithoutFrontier), r₁)
        else if c.maxDepth ≤ r₁.limit then (.error (r₁.unsolvable .provisionalAtDepthBound), r₁)
        else exec (deepen (t := t) c rounds) { r₁ with limit := r₁.limit + 1 } := by
  rw [deepen, deepenBy]
  unfold round
  simp only [exec_bind, exec_modify]
  cases exec (grow (t := t) c) { r with iterations := r.iterations + 1 } with
  | mk grown r₁ =>
    cases grown with
    | error e => rfl
    | ok _ =>
      dsimp only
      cases exec (settle (t := t)) r₁ with
      | mk settled r₂ =>
        cases settled with
        | error e => rfl
        | ok _ =>
          simp only [exec_get]
          split
          · rfl
          · split
            · rfl
            · split
              · rfl
              · rw [exec_bind, exec_set]

end Planning

namespace Run

open Planning

theorem rootSettled_iff : r.rootSettled = true ↔
    ∀ w ∈ (r.tree.node root).state.possible, (r.tree.arena.world w).cost.isSettled = true := by
  unfold rootSettled rootCosts
  rw [List.all_map, List.all_eq_true]
  rfl

theorem rootHopeless_iff : r.rootHopeless = true ↔
    ∀ w ∈ (r.tree.node root).state.designated, (r.tree.arena.world w).cost = .infinity := by
  unfold rootHopeless rootCosts
  rw [List.all_map, List.all_eq_true]
  simp only [Function.comp_apply, decide_eq_true_eq]
  rfl

/-- A run of the planner that is about to begin a round. -/
inductive AtRound (t : PlanningTask) (c : PlannerConfig) : Run → Prop
  | initial : AtRound t c (.initial t c)
  | raised {r r' : Run} (h : AtRound t c r) (hround : exec (round (t := t) c) r = (.ok ⟨⟩, r'))
      (hopen : r'.rootSettled = false) (hfrontier : r'.frontier ≠ [])
      (hlimit : r'.limit < c.maxDepth) : AtRound t c { r' with limit := r'.limit + 1 }

/-- What holds of a run of the planner after a round. -/
structure AfterRound (t : PlanningTask) (c : PlannerConfig) (r : Run) : Prop where
  tree : t.fullTree r.limit = .ok r.tree
  level : ∃ h, r.AtLevel t r.limit h
  goal : r.goalDepth = t.goalDepth? c.maxDepth
  limit : r.limit + 1 = t.firstBound c.maxDepth + r.iterations
  bound : r.limit ≤ c.maxDepth
  begun : 1 ≤ r.iterations

/-- The first round lowers the bound to the first level with a goal world. -/
theorem afterRound_initial (hacc : t.Accepted)
    (hround : exec (round (t := t) c) (.initial t c) = (.ok ⟨⟩, r)) : r.AfterRound t c := by
  obtain ⟨htree, hlevel, hfinds, hcount⟩ :=
    fullTree_of_exec_round hacc (atLevel_initial (c := c)) hround
  have hone : r.iterations = 1 := hcount
  have hall : ∀ {k}, (∀ j, 0 < j → j ≤ k → t.hasGoalAt j = false) →
      ∀ j, 1 ≤ j → j ≤ k → t.hasGoalAt j = false := fun h j hj => h j hj
  cases hfinds with
  | before hfound _ _ => exact absurd rfl hfound
  | nowhere _ hgoal hlimit hnone =>
    have hdepth : r.limit = c.maxDepth := hlimit
    have hgoal? : t.goalDepth? c.maxDepth = none :=
      PlanningTask.goalDepth?_eq_none.2 fun j hj hle => hnone j hj hle
    have hfirst : t.firstBound c.maxDepth = c.maxDepth := by
      rw [PlanningTask.firstBound, hgoal?, Option.getD_none]
    refine ⟨htree, hlevel, hgoal.trans hgoal?.symm, ?_, Nat.le_of_eq hdepth, Nat.le_of_eq hone.symm⟩
    rw [hfirst, hdepth, hone]
  | first _ hgoal hbelow hbound hhere habove =>
    have hgoal? : t.goalDepth? c.maxDepth = some r.limit :=
      PlanningTask.goalDepth?_eq_some.2 ⟨hbelow, hbound, hhere, fun j hj hlt => habove j hj hlt⟩
    have hfirst : t.firstBound c.maxDepth = r.limit := by
      rw [PlanningTask.firstBound, hgoal?, Option.getD_some]
    refine ⟨htree, hlevel, hgoal.trans hgoal?.symm, ?_, hbound, Nat.le_of_eq hone.symm⟩
    rw [hfirst, hone]

/-- A later round keeps the depth of the goal, and ends at the raised bound. -/
theorem AfterRound.raised (hacc : t.Accepted) (hr : r.AfterRound t c)
    (hlimit : r.limit < c.maxDepth)
    (hround : exec (round (t := t) c) { r with limit := r.limit + 1 } = (.ok ⟨⟩, r')) :
    r'.AfterRound t c ∧ r'.limit = r.limit + 1 := by
  obtain ⟨h, hlevel⟩ := hr.level
  have hraised : ({ r with limit := r.limit + 1 } : Run).AtLevel t r.limit h :=
    hlevel.congr rfl rfl (Nat.le_succ _)
  obtain ⟨htree, hlevel', hfinds, hcount⟩ := fullTree_of_exec_round hacc hraised hround
  have hsum := hr.limit
  have hcount' : r'.iterations = r.iterations + 1 := hcount
  -- a second round is begun only when a goal world has been found
  have hfound : r.goalDepth ≠ none := by
    intro hnone
    have hbegun := hr.begun
    rw [hr.goal] at hnone
    rw [PlanningTask.firstBound, hnone, Option.getD_none] at hsum
    omega
  cases hfinds with
  | before _ hgoal hbound =>
    have hbound' : r'.limit = r.limit + 1 := hbound
    refine ⟨⟨htree, hlevel', hgoal.trans hr.goal, ?_, ?_, ?_⟩, hbound'⟩
    all_goals omega
  | nowhere hnone _ _ _ => exact absurd hnone hfound
  | first hnone _ _ _ _ _ => exact absurd hnone hfound

theorem AtRound.after (hacc : t.Accepted) (hr : r.AtRound t c)
    (hround : exec (round (t := t) c) r = (.ok ⟨⟩, r')) : r'.AfterRound t c := by
  induction hr generalizing r' with
  | initial => exact afterRound_initial hacc hround
  | raised _ hprevious _ _ hlimit ih => exact ((ih hprevious).raised hacc hlimit hround).1

theorem AfterRound.costedTo (hacc : t.Accepted) (hfresh : t.arena.Fresh)
    (hr : r.AfterRound t c) : r.tree.CostedTo t r.limit :=
  PlanningTask.costedTo_of_fullTree hacc hfresh hr.tree

theorem AtRound.atLevel (hacc : t.Accepted) (hr : r.AtRound t c) : ∃ d h, r.AtLevel t d h := by
  cases hr with
  | initial => exact ⟨0, ofTask t, atLevel_initial⟩
  | raised hr hround _ _ _ =>
    obtain ⟨h, hlevel⟩ := (hr.after hacc hround).level
    exact ⟨_, h, hlevel.congr rfl rfl (Nat.le_succ _)⟩

/-- What deepening from a run by at most the given number of rounds ends with. -/
inductive Deepened (t : PlanningTask) (c : PlannerConfig) :
    Nat → Run → Except PlanError Unit → Run → Prop
  | exhausted {r : Run} : Deepened t c 0 r (.error (r.unsolvable .iterationsExhausted))
      { r with iterations := r.iterations + 1 }
  | broken {rounds : Nat} {r r' : Run} {e : PlanError}
      (hround : exec (round (t := t) c) r = (.error e, r')) :
      Deepened t c (rounds + 1) r (.error e) r'
  | settled {rounds : Nat} {r r' : Run} (hround : exec (round (t := t) c) r = (.ok ⟨⟩, r'))
      (hsettled : r'.rootSettled = true) : Deepened t c (rounds + 1) r (.ok ⟨⟩) r'
  | stranded {rounds : Nat} {r r' : Run} (hround : exec (round (t := t) c) r = (.ok ⟨⟩, r'))
      (hopen : r'.rootSettled = false) (hfrontier : r'.frontier = []) :
      Deepened t c (rounds + 1) r (.error (r'.unsolvable .provisionalWithoutFrontier)) r'
  | bounded {rounds : Nat} {r r' : Run} (hround : exec (round (t := t) c) r = (.ok ⟨⟩, r'))
      (hopen : r'.rootSettled = false) (hlimit : c.maxDepth ≤ r'.limit) :
      Deepened t c (rounds + 1) r (.error (r'.unsolvable .provisionalAtDepthBound)) r'
  | raised {rounds : Nat} {r r₁ r' : Run} {result : Except PlanError Unit}
      (hround : exec (round (t := t) c) r = (.ok ⟨⟩, r₁)) (hopen : r₁.rootSettled = false)
      (hfrontier : r₁.frontier ≠ []) (hlimit : r₁.limit < c.maxDepth)
      (h : Deepened t c rounds { r₁ with limit := r₁.limit + 1 } result r') :
      Deepened t c (rounds + 1) r result r'

theorem deepened_of_exec {result : Except PlanError Unit}
    (hexec : exec (deepen (t := t) c rounds) r = (result, r')) :
    Deepened t c rounds r result r' := by
  -- on the rounds that are left, with one case for each way to end a round
  induction rounds generalizing r with
  | zero =>
    rw [deepen_zero] at hexec
    simp only [exec_bind, exec_modify, exec_get, exec_throw] at hexec
    cases hexec
    exact .exhausted
  | succ rounds ih =>
    rw [exec_deepen_succ] at hexec
    cases hround : exec (round (t := t) c) r with
    | mk outcome r₁ =>
      rw [hround] at hexec
      cases outcome with
      | error e =>
        cases hexec
        exact .broken hround
      | ok _ =>
        dsimp only at hexec
        split at hexec
        · next hsettled =>
          cases hexec
          exact .settled hround hsettled
        · next hopen =>
          have hopen := Bool.eq_false_iff.2 hopen
          split at hexec
          · next hempty =>
            cases hexec
            exact .stranded hround hopen (List.isEmpty_iff.1 hempty)
          · next hfrontier =>
            have hfrontier := fun hnil => hfrontier (List.isEmpty_iff.2 hnil)
            split at hexec
            · next hlimit =>
              cases hexec
              exact .bounded hround hopen hlimit
            · next hlimit =>
              exact .raised hround hopen hfrontier (Nat.lt_of_not_le hlimit) (ih hexec)

/-- Deepening that succeeds ends after a round with the costs of the root known. -/
theorem Deepened.settled_of_ok {result : Except PlanError Unit}
    (h : Deepened t c rounds r result r') (hr : r.AtRound t c) (hok : result = .ok ⟨⟩) :
    r'.rootSettled = true ∧ ∃ r₀, r₀.AtRound t c ∧ exec (round (t := t) c) r₀ = (.ok ⟨⟩, r') := by
  induction h with
  | exhausted => cases hok
  | broken _ => cases hok
  | settled hround hsettled => exact ⟨hsettled, _, hr, hround⟩
  | stranded _ _ _ => cases hok
  | bounded _ _ _ => cases hok
  | raised hround hopen hfrontier hlimit _ ih =>
    exact ih (.raised hr hround hopen hfrontier hlimit) hok

end Run

end EpistemicPlanning
