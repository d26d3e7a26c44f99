import EpistemicPlanning.Proofs.Action
import EpistemicPlanning.Proofs.Formula.Totality
import EpistemicPlanning.Proofs.Update.Locality
import EpistemicPlanning.Proofs.Update.Product

/-!
# Actions that can be told

A task is closed when its formulas speak only of agents of the initial state. All states that come
of its actions have the agents of the initial state, so no lookup fails in them: it can be told
which events fire, which actions are applicable, and what comes of them.
-/
namespace EpistemicPlanning

open Fallible

/-- Actions are declared step by step, and the goal and all preconditions, those that are worked out
for some valuation included, speak only of agents of the initial state. -/
structure PlanningTask.Closed (t : PlanningTask) : Prop where
  declared : ∀ action ∈ t.actions, ∃ name owner steps,
    Action.ofSteps name owner steps = .ok action
  goal : ∀ a ∈ t.goal.agents, t.initial.relation.hasAgent a = true
  precondition : ∀ action ∈ t.actions, ∀ event ∈ action.events, ∀ v,
    ∀ a ∈ (event.rule.resolve v t.view).precondition.agents,
      t.initial.relation.hasAgent a = true

variable {t : PlanningTask} {arena : Arena} {state : State} {w : WorldId} {action : Action}
variable {a : ActionId} {e : EventId}

namespace PlanningTask.Closed

variable (hclosed : t.Closed) (hagents : state.agents = t.initial.agents)

include hclosed

theorem mem_eventIds (hact : t.action? a = some action) (he : e ∈ action.designated) :
    e ∈ action.eventIds := by
  obtain ⟨name, owner, steps, hsteps⟩ := hclosed.declared action (mem_of_action? hact)
  exact Action.mem_eventIds_of_designated hsteps he

include hagents

theorem succeeds_goal : Succeeds (t.goal.evaluate arena state w) := by
  refine t.goal.succeeds_evaluate (fun b hb => ?_) w
  rw [PointedModel.hasAgent_of_agents hagents]
  exact hclosed.goal b hb

theorem decided (hact : t.action? a = some action) (he : e ∈ action.eventIds) :
    t.Decided arena state w a e := by
  have hlt := PlanningTask.mem_eventIds.1 he
  have hevent : t.event? a e = some action.events[e.index] := by
    rw [event?, hact]
    exact List.getElem?_eq_getElem hlt
  have hmem : action.events[e.index] ∈ action.events := List.getElem_mem hlt
  have houtcome : t.outcomeAt? arena w a e =
      some (action.events[e.index].rule.resolve (arena.world w).valuation t.view) := by
    rw [outcomeAt?, hevent]
    rfl
  obtain ⟨b, hb⟩ : Succeeds ((action.events[e.index].rule.resolve (arena.world w).valuation
      t.view).precondition.evaluate arena state w) := by
    refine Formula.succeeds_evaluate _ (fun b hb => ?_) w
    rw [PointedModel.hasAgent_of_agents hagents]
    exact hclosed.precondition action (mem_of_action? hact) _ hmem _ b hb
  exact ⟨_, b, houtcome, hb⟩

theorem succeeds_fires (hact : t.action? a = some action) (he : e ∈ action.eventIds) :
    Succeeds (Updating.fires (t := t) arena state w a e).value := by
  unfold Updating.fires
  rw [Updating.value_bind]
  exact Succeeds.bind (decided_iff.1 (hclosed.decided hagents hact he)) fun fired _ =>
    ⟨fired.isSome, rfl⟩

theorem succeeds_isApplicable (hact : t.action? a = some action) :
    Succeeds (Updating.isApplicable (t := t) arena state a).value := by
  unfold Updating.isApplicable
  rw [hact]
  dsimp only
  rw [Updating.value_allM]
  refine succeeds_allM fun v _ => ?_
  rw [Updating.value_anyM]
  exact succeeds_anyM fun e he =>
    hclosed.succeeds_fires hagents hact (hclosed.mem_eventIds hact he)

theorem succeeds_hasApplicableEvent :
    Succeeds (Updating.hasApplicableEvent (t := t) arena state w).value := by
  unfold Updating.hasApplicableEvent
  rw [Updating.value_anyM]
  refine succeeds_anyM fun ⟨b, e⟩ hmem => ?_
  obtain ⟨event, hevent⟩ := mem_eventHandles.1 hmem
  obtain ⟨action, hact, hget⟩ := Option.bind_eq_some_iff.1 hevent
  have he : e ∈ action.eventIds :=
    PlanningTask.mem_eventIds.2 (List.getElem?_eq_some_iff.1 hget).1
  exact hclosed.succeeds_fires hagents hact he

theorem succeeds_apply (hact : t.action? a = some action) :
    Succeeds (Update.apply (t := t) arena state a).value.1 := by
  have hdecided : ∀ w ∈ state.possible, ∀ e ∈ action.eventIds, t.Decided arena state w a e :=
    fun _ _ _ he => hclosed.decided hagents hact he
  obtain ⟨cs, hcs⟩ :=
    Update.value_candidates_eq_ok_iff.2 (Update.decided_pairs_iff.2 hdecided)
  rw [Update.value_apply hact, hcs]
  dsimp only
  split
  · exact ⟨_, rfl⟩
  · exact ⟨_, rfl⟩

theorem succeeds_perform (hacc : t.Accepted) (hact : t.action? a = some action) :
    Succeeds (Update.perform t arena state action a) := by
  have howner : state.relation.hasAgent action.owner = true := by
    rw [PointedModel.hasAgent_of_agents hagents]
    exact hacc.hasOwner hact
  refine (PointedModel.succeeds_perspective howner).bind fun shifted hshift => ?_
  have hagents' := (PointedModel.agents_of_perspective hshift).trans hagents
  refine (hclosed.succeeds_isApplicable hagents' hact).bind fun b _ => ?_
  cases b with
  | true => exact (hclosed.succeeds_apply hagents' hact).map _
  | false => exact ⟨_, rfl⟩

end PlanningTask.Closed

namespace Lever

theorem closed : task.Closed where
  declared action hact := by
    rcases List.mem_cons.1 hact with rfl | hact
    · exact ⟨_, _, _, eq_ok_get _ _⟩
    · obtain rfl := List.mem_singleton.1 hact
      exact ⟨_, _, _, eq_ok_get _ _⟩
  goal a ha := absurd ha SortedSet.not_mem_empty
  precondition action hact event hev v a ha := by
    -- no event is dynamic, so one valuation stands for all
    have hall : (task.actions.flatMap Action.events).all (fun event => !event.rule.isDynamic &&
        (event.rule.resolve default task.view).precondition.agents.isEmpty) = true := by
      decide +kernel
    have hevent := List.all_eq_true.1 hall event (List.mem_flatMap.2 ⟨action, hact, hev⟩)
    rw [Bool.and_eq_true] at hevent
    obtain ⟨hfixed, hempty⟩ := hevent
    cases hrule : event.rule with
    | fixed outcome =>
      rw [hrule] at hempty ha
      have hnil := List.isEmpty_iff.1 hempty
      rw [EventRule.resolve] at ha hnil
      rw [SortedSet.mem_def, hnil] at ha
      cases ha
    | perWorld resolve =>
      rw [hrule] at hfixed
      cases hfixed

end Lever

end EpistemicPlanning
