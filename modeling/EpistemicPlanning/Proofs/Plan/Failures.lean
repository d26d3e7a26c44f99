import EpistemicPlanning.Proofs.Crowd
import EpistemicPlanning.Proofs.Plan.FromScratch
import EpistemicPlanning.Proofs.Planning.Words
import EpistemicPlanning.Proofs.Update.Reached

/-!
# How planning fails

As long as a word is left for another world, planning a closed task fails for reasons of planning
only: there is no solution within the bounds, or no room for another node
(`Planner.fails_only_by_planning`). All that is looked up on the way is found, and the worlds of all
states are in the arena of the tree (`Run.Informed`). When words run out, no state can be made of the
new worlds (`Crowd.planning_fails`).
-/
namespace EpistemicPlanning

open Fallible SearchTree

variable {t : PlanningTask} {c : PlannerConfig} {p : Planner} {r : Run}
variable {g : SearchTree} {arena arena' : Arena} {state shifted next' : State} {n : NodeId}
variable {action : Action} {a : ActionId}

/-! ### Lookups -/

/-- All worlds that a state speaks of are in the arena. -/
structure State.HeldIn (state : State) (arena : Arena) : Prop where
  possible : ∀ w ∈ state.possible, w.index < arena.worlds.size
  designated : ∀ w ∈ state.designated, w.index < arena.worlds.size
  nodes : ∀ w ∈ state.relation.nodes, w.index < arena.worlds.size
  links : ∀ b ls, state.relation.links.find? b = some ls → ∀ l ∈ ls,
    l.low.index < arena.worlds.size ∧ l.high.index < arena.worlds.size

theorem State.heldIn (hwf : state.WellFormed)
    (hin : ∀ w ∈ state.possible, w.index < arena.worlds.size) : state.HeldIn arena where
  possible := hin
  designated w hw := hin w (hwf.designated_possible w hw)
  nodes w hw := hin w ((hwf.nodes_iff w).1 hw)
  links b ls hls l hl := by
    obtain ⟨hlow, hhigh, _⟩ := hwf.selfContained.links b ls hls l hl
    exact ⟨hin _ hlow, hin _ hhigh⟩

theorem SearchTree.Sound.heldIn (hs : g.Sound t) (hn : n.index < g.size) :
    (g.node n).state.HeldIn g.arena :=
  State.heldIn (hs.state n hn) (hs.inArena n hn)

/-- Whatever a run looks up is found, whatever has been remembered of dynamic events. -/
structure Run.Informed (t : PlanningTask) (r : Run) : Prop where
  held : ∀ n, n.index < r.tree.size → (r.tree.node n).state.HeldIn r.tree.arena
  /-- The owner of an action has a perspective at each node. -/
  perspective : ∀ n, n.index < r.tree.size → ∀ a action, t.action? a = some action →
    Succeeds ((r.tree.node n).state.perspective action.owner)
  /-- It can be told in this perspective whether the action applies. -/
  applicability : ∀ n, n.index < r.tree.size → ∀ a action, t.action? a = some action →
    ∀ shifted, (r.tree.node n).state.perspective action.owner = .ok shifted → ∀ m,
      Succeeds ((Updating.isApplicable (t := t) r.tree.arena shifted a).run.run m).1
  /-- The update of this perspective succeeds. -/
  update : ∀ n, n.index < r.tree.size → ∀ a action, t.action? a = some action →
    ∀ shifted, (r.tree.node n).state.perspective action.owner = .ok shifted → ∀ m,
      Succeeds ((Update.apply (t := t) r.tree.arena shifted a).run m).1.1
  /-- Made step by step, this update comes to the same, if there are words for all worlds and
  edges. -/
  stepwise : ∀ n, n.index < r.tree.size → ∀ a action, t.action? a = some action →
    ∀ shifted, (r.tree.node n).state.perspective action.owner = .ok shifted → ∀ m,
      ((Update.applyInSteps (t := t) r.tree.arena shifted a).run m).1.2.Numbered →
        ∃ next?, ((Update.applyInSteps (t := t) r.tree.arena shifted a).run m).1.1 = .ok next? ∧
          ((Update.apply (t := t) r.tree.arena shifted a).run m).1 =
            (.ok next?, ((Update.applyInSteps (t := t) r.tree.arena shifted a).run m).1.2)
  /-- The updated state passes the check of states, its worlds are in the arena, and the worlds in
  which the goal holds can be told. -/
  updated : ∀ n, n.index < r.tree.size → ∀ a action, t.action? a = some action →
    ∀ shifted, (r.tree.node n).state.perspective action.owner = .ok shifted → ∀ m next' arena',
      ((Update.apply (t := t) r.tree.arena shifted a).run m).1 = (.ok (some next'), arena') →
        State.ofParts next'.possible next'.designated next'.relation = .ok next' ∧
          next'.HeldIn arena' ∧ Succeeds (next'.worldsSatisfying arena' t.goal)
  /-- All costs can be computed. -/
  costs : ∀ m, Succeeds (((Planning.settle (t := t)).run.run r).run m).1.1
  /-- For each step that may be pruned, it is known what its owner can be sure of. -/
  pruning : Succeeds (Rationality.prune r.tree)

namespace PlanningTask.Closed

variable (hclosed : t.Closed)

include hclosed

theorem succeeds_settle (hs : r.tree.Sound t) (m : Memo t.outcome) :
    Succeeds (((Planning.settle (t := t)).run.run r).run m).1.1 := by
  rw [Consult.run_fst_eq_value]
  change Succeeds (Planning.exec Planning.settle r).1
  cases hexec : Planning.exec (Planning.settle (t := t)) r with
  | mk result r' =>
    cases result with
    | ok _ => exact ⟨_, rfl⟩
    | error e =>
      obtain ⟨m, hcosts, _⟩ := Planning.exec_settle_error hexec
      exact absurd hcosts ((hclosed.succeeds_withCosts hs).ne_error m)

/-- What an update makes of a state of the task is a state of the task again. -/
theorem updated_of_apply (hagents : state.agents = t.initial.agents)
    (hact : t.action? a = some action)
    (h : (Update.apply (t := t) arena state a).value = (.ok (some next'), arena')) :
    State.ofParts next'.possible next'.designated next'.relation = .ok next' ∧
      next'.HeldIn arena' ∧ Succeeds (next'.worldsSatisfying arena' t.goal) := by
  have hwf := Update.wellFormed_of_apply h
  obtain ⟨cs, _, _, rfl, rfl⟩ := Update.value_apply_eq_some hact h
  have hnext : (Update.next arena state action cs).agents = t.initial.agents :=
    Update.agents_next.trans hagents
  refine ⟨?_, State.heldIn hwf fun w hw => ?_, ?_⟩
  · rw [State.ofParts, hwf.ofParts_eq]
    rfl
  · exact (lt_of_mem_possible_next action.owner a hw).2
  · refine PointedModel.succeeds_worldsSatisfying fun b hb => ?_
    rw [PointedModel.hasAgent_of_agents hnext]
    exact hclosed.goal b hb

theorem informed (hacc : t.Accepted) (hs : r.tree.Sound t) (hwf : r.tree.WellFormed t) :
    r.Informed t where
  held _ hn := hs.heldIn hn
  perspective n hn a action hact := by
    refine PointedModel.succeeds_perspective ?_
    rw [PointedModel.hasAgent_of_agents (hs.agents n hn)]
    exact hacc.hasOwner hact
  applicability n hn a action hact shifted hshift m := by
    have hagents := (PointedModel.agents_of_perspective hshift).trans (hs.agents n hn)
    rw [Consult.run_fst_eq_value]
    exact hclosed.succeeds_isApplicable hagents hact
  update n hn a action hact shifted hshift m := by
    have hagents := (PointedModel.agents_of_perspective hshift).trans (hs.agents n hn)
    rw [Consult.run_fst_eq_value]
    exact hclosed.succeeds_apply hagents hact
  stepwise n hn a action hact shifted hshift m hnumbered := by
    have hagents := (PointedModel.agents_of_perspective hshift).trans (hs.agents n hn)
    have hsucceeds : Succeeds (Update.apply (t := t) r.tree.arena shifted a).value.1 :=
      hclosed.succeeds_apply hagents hact
    obtain ⟨next?, hok⟩ := hsucceeds
    rw [← Consult.run_fst_eq_value _ m] at hok
    rw [Update.run_applyInSteps hnumbered, hok]
    exact ⟨next?, rfl, Prod.ext hok rfl⟩
  updated n hn a action hact shifted hshift m next' arena' hupdate := by
    have hagents := (PointedModel.agents_of_perspective hshift).trans (hs.agents n hn)
    rw [Consult.run_fst_eq_value] at hupdate
    exact hclosed.updated_of_apply hagents hact hupdate
  costs := hclosed.succeeds_settle hs
  pruning := Rationality.succeeds_prune (hwf.owned hacc hs)

end PlanningTask.Closed

/-- Nothing is missing at any point of a run for a closed task. -/
theorem Run.Visited.informed (hacc : t.Accepted) (hfresh : t.arena.Fresh) (hclosed : t.Closed)
    (hr : r.Visited t c) : r.Informed t := by
  obtain ⟨hs, hwf⟩ := hr.keeps hacc hfresh
  exact hclosed.informed hacc hs hwf

/-! ### The outcome of planning -/

/-- There is a plan, or no solution within the bounds, or no room for another node; and on the way
nothing is missing. -/
structure FailsOnlyByPlanning (t : PlanningTask) (p : Planner) : Prop where
  outcome : (∃ g, p.planInWords t = .ok g) ∨
    (∃ depth reason, p.planInWords t = .error (.planning (.unsolvable depth reason))) ∨
      ∃ most count, p.planInWords t = .error (.planning (.tooManyNodes most count))
  /-- The run goes as it would if handles never ran out. -/
  agrees : p.runInWords t = p.run t ∧ p.lastInWords t = p.last t
  ample : ∀ r : Run, r.Visited t p.config → r.iterations ≤ p.config.maxIterations → r.Ample
  visited : ∀ r : Run, r.Visited t p.config → r.Informed t
  planned : ∀ g, p.planInWords t = .ok g → ∀ n, n.index < g.size →
    (g.node n).state.HeldIn g.arena

namespace Planner

variable (hacc : t.Accepted) (hfresh : t.arena.Fresh) (hclosed : t.Closed)

include hacc hfresh

/-- The worlds of the states of a plan are in its arena. -/
theorem heldIn_of_plan (h : p.plan t = .ok g) (hn : n.index < g.size) :
    (g.node n).state.HeldIn g.arena := by
  obtain ⟨r, hmade⟩ := plan_of_run h
  obtain ⟨r₀, hstart, hround⟩ := hmade.round
  obtain ⟨hs, _⟩ := (Run.Reachable.settled hstart hround).keeps hacc hfresh
  exact (hs.of_sameShape hmade.sameCosts.toSameShape.symm).heldIn hn

include hclosed

/-- Planning a closed task whose arena has no provenance yet fails only for reasons of planning, if a
word is left in the end. -/
theorem fails_only_by_planning (p : Planner) (hample : (p.lastInWords t).Ample) :
    FailsOnlyByPlanning t p := by
  have hrun : p.runInWords t = p.run t := runInWords_eq hfresh (Or.inl hample)
  have hlast : p.lastInWords t = p.last t := lastInWords_eq hfresh (Or.inl hample)
  have hplan : p.planInWords t = p.plan t := congrArg PlanOutcome.result hrun
  refine ⟨?_, ⟨hrun, hlast⟩, fun r hr => ample_of_visited hacc (hlast ▸ hample) hr,
    fun r hr => hr.informed hacc hfresh hclosed, fun g h n hn => ?_⟩
  · rw [hplan]
    by_cases hroom : ∀ m k, p.plan t ≠ .error (.planning (.tooManyNodes m k))
    · rcases outcome hacc hfresh hclosed hroom with ⟨g, _, hplan, _⟩ | ⟨hfail, _⟩
      · exact Or.inl ⟨g, hplan⟩
      · exact Or.inr (Or.inl hfail)
    · push Not at hroom
      exact Or.inr (Or.inr hroom)
  · rw [hplan] at h
    exact heldIn_of_plan hacc hfresh h hn

end Planner

namespace Lever

theorem ample : (planner.lastInWords task).Ample := by
  unfold Run.Ample
  decide +kernel

/-- Planning for the lever ends in a plan, and nothing is missing on the way. -/
theorem plan_informed : FailsOnlyByPlanning task planner ∧ planner.planInWords task = .ok plan ∧
    (Run.initial task planner.config).Informed task := by
  have hfails := Planner.fails_only_by_planning accepted fresh closed planner ample
  exact ⟨hfails, (congrArg PlanOutcome.result hfails.agrees.1).trans plan_eq,
    hfails.visited _ (.reachable (.atRound .initial))⟩

end Lever

namespace Crowd

open Planning

/-- The run while the root is expanded. -/
noncomputable def firstRound (c : PlannerConfig) : Run := { Run.initial task c with iterations := 1 }

/-- When there is room for a second node, the worlds for it are made and stay behind. -/
theorem trace_adoptInWords (hr : r.tree.arena = Crowd.arena) (m : Memo task.outcome) (depth : Nat) :
    trace (adoptInWords (t := task) root initial ⟨0⟩ depth) r m =
      ((.error (.validation (.malformedState (.shape .duplicateNode))), r.withArena overfull), m) := by
  unfold adoptInWords
  rw [trace_bind, trace_updateInSteps, hr, run_applyInSteps]

theorem exec_tryToss (c : PlannerConfig) :
    exec (tryActionBy (t := task) adoptInWords c root toss ⟨0⟩) (firstRound c) =
      if c.maxNodes ≤ 1 then (.error (.planning (.tooManyNodes c.maxNodes 2)), firstRound c)
      else (.error (.validation (.malformedState (.shape .duplicateNode))),
        (firstRound c).withArena overfull) := by
  have happ : ((Updating.isApplicable (t := task) (firstRound c).tree.arena initial
      ⟨0⟩).run.run ∅).1 = .ok true := congrArg Prod.fst (run_isApplicable Crowd.arena ∅)
  have hseen : ((firstRound c).tree.node root).state.perspective toss.owner = .ok initial :=
    perspective_initial
  rw [exec_eq_trace _ ∅, trace_tryActionBy hseen happ, if_pos rfl]
  change (if c.maxNodes ≤ 1 then _ else _ : (Except PlanError Unit × Run) × Memo task.outcome).1 = _
  split
  · rfl
  · rw [trace_adoptInWords rfl]

/-- Whatever the bounds are, planning ends while the root is expanded. -/
theorem exec_treeInWords (p : Planner) :
    exec (treeInWords (t := task) p.config) (.initial task p.config) =
      if p.config.maxNodes ≤ 1 then
        (.error (.planning (.tooManyNodes p.config.maxNodes 2)), firstRound p.config)
      else (.error (.validation (.malformedState (.shape .duplicateNode))),
        (firstRound p.config).withArena overfull) := by
  have hexpand : ∀ {e r}, exec (tryActionBy (t := task) adoptInWords p.config root toss ⟨0⟩)
      (firstRound p.config) = (.error e, r) →
        exec (treeInWords (t := task) p.config) (.initial task p.config) = (.error e, r) := by
    intro e r h
    refine exec_treeInWords_of_error p.bounds_pos.1 p.bounds_pos.2.1 ?_
    unfold expandInWords
    rw [show task.numbered = [(toss, ⟨0⟩)] from numbered_tossIn Crowd.arena]
    exact exec_bind_of_error h
  have htoss := exec_tryToss p.config
  split at htoss
  · next hfull => rw [hexpand htoss, if_pos hfull]
  · next hroom => rw [hexpand htoss, if_neg hroom]

theorem planInWords_of_room {p : Planner} (h : 1 < p.config.maxNodes) :
    p.planInWords task = .error (.validation (.malformedState (.shape .duplicateNode))) ∧
      p.lastInWords task = (firstRound p.config).withArena overfull := by
  have hexec := exec_treeInWords p
  rw [if_neg (Nat.not_le_of_lt h)] at hexec
  exact ⟨Planner.planInWords_of_error hexec, congrArg Prod.snd hexec⟩

/-- A planner that has room for a second node. -/
def planner : Planner := ⟨{ maxNodes := 2 }, rfl⟩

/-- In the crowd, planning ends with worlds that no state can be made of. A bound of zero is refused
before planning begins. -/
theorem planning_fails : (task.Accepted ∧ task.arena.Fresh ∧ task.Closed) ∧
    planner.planInWords task =
      .error (.validation (.malformedState (.shape .duplicateNode))) ∧
    Planner.ofConfig { maxIterations := 0 } = .error (.zeroBound .maxIterations) :=
  ⟨⟨accepted, fresh, closed⟩, (planInWords_of_room (by decide)).1, rfl⟩

end Crowd

end EpistemicPlanning
