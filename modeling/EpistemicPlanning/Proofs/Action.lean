import EpistemicPlanning.Action
import EpistemicPlanning.Proofs.PointedModel

/-!
# Declared actions

What the declaration of an action comes to: there are events, the model of the action is well formed
over them, and the owner is one of its agents (`Action.Declared`).
-/
namespace EpistemicPlanning

variable {a : Agent} {owner : Agent} {name : String} {steps : List ActionStep} {action : Action}
variable {e : EventId}

namespace ActionDraft

variable {draft : ActionDraft}

/-- The draft after some steps. -/
def after (owner : Agent) (steps : List ActionStep) : ActionDraft :=
  steps.foldl extend (.initial owner)

theorem mem_observers_extend (h : a ∈ draft.observers) (step : ActionStep) :
    a ∈ (draft.extend step).observers := by
  cases step with
  | event e => exact h
  | designate e => exact h
  | designateAll => exact h
  | observer b => exact SortedSet.mem_insert.2 (Or.inr h)
  | indistinguishable b e f => exact SortedSet.mem_insert.2 (Or.inr h)

theorem owner_mem_observers : owner ∈ (after owner steps).observers := by
  have hinitial : owner ∈ (initial owner).observers := SortedSet.mem_singleton.2 rfl
  exact List.foldlRecOn (motive := fun draft : ActionDraft => owner ∈ draft.observers) _ _ hinitial
    fun _ h step _ => mem_observers_extend h step

theorem endsKnown_relation : draft.relation.EndsKnown :=
  List.foldlRecOn (motive := Accessibility.EndsKnown) _ _ (Accessibility.endsKnown_discrete _ _)
    fun _ h _ _ => h.link _ _ _

theorem hasAgent_relation (h : a ∈ draft.observers) : draft.relation.hasAgent a = true :=
  List.foldlRecOn (motive := fun r : Accessibility .event => r.hasAgent a = true) _ _
    (Accessibility.hasAgent_discrete.2 h) fun _ hr _ _ => Accessibility.hasAgent_link.trans hr

theorem model_eq_ok {model : PointedModel .event} (h : draft.model = .ok model) :
    draft.events ≠ [] ∧
      PointedModel.ofParts draft.eventIds draft.designated draft.relation = .ok model := by
  unfold ActionDraft.model modelOver at h
  split at h
  · cases h
  · next hevents =>
    split at h
    · cases h
    · split at h
      · cases h
      · exact ⟨fun hnil => hevents (List.isEmpty_iff.2 hnil), Fallible.mapError_eq_ok h⟩

end ActionDraft

namespace Action

theorem ofSteps_eq_ok (h : ofSteps name owner steps = .ok action) :
    (ActionDraft.after owner steps).model = .ok action.model ∧
      action.events = (ActionDraft.after owner steps).events := by
  unfold ofSteps ofStepsBy at h
  dsimp only at h
  split at h
  · next model hmodel =>
    cases h
    exact ⟨hmodel, rfl⟩
  · cases h

/-- The action has been declared step by step. -/
def Declared (action : Action) : Prop :=
  ∃ name owner steps, ofSteps name owner steps = .ok action

namespace Declared

variable (h : action.Declared)

include h

theorem exists_draft : ∃ owner steps,
    let draft := ActionDraft.after owner steps
    action.events = draft.events ∧ draft.events ≠ [] ∧
      PointedModel.ofParts draft.eventIds draft.designated draft.relation = .ok action.model := by
  obtain ⟨name, owner, steps, hsteps⟩ := h
  obtain ⟨hmodel, hevents⟩ := ofSteps_eq_ok hsteps
  exact ⟨owner, steps, hevents, ActionDraft.model_eq_ok hmodel⟩

theorem events_ne_nil : action.events ≠ [] := by
  obtain ⟨owner, steps, hevents, hne, _⟩ := h.exists_draft
  exact hevents ▸ hne

theorem wellFormed : action.model.WellFormed := by
  obtain ⟨owner, steps, _, _, hparts⟩ := h.exists_draft
  exact PointedModel.wellFormed_of_endsKnown ActionDraft.endsKnown_relation hparts

theorem possible_eq : action.model.possible = action.eventIds := by
  obtain ⟨owner, steps, hevents, _, hparts⟩ := h.exists_draft
  obtain ⟨_, _, _, hmodel⟩ := PointedModel.ofParts_eq_ok hparts
  rw [hmodel, eventIds, hevents]
  rfl

theorem exists_agent : ∃ a, action.relation.hasAgent a = true := by
  obtain ⟨owner, steps, _, _, hparts⟩ := h.exists_draft
  obtain ⟨_, _, _, hmodel⟩ := PointedModel.ofParts_eq_ok hparts
  refine ⟨owner, ?_⟩
  rw [relation, hmodel, Accessibility.hasAgent_foldl_addNode]
  exact ActionDraft.hasAgent_relation ActionDraft.owner_mem_observers

end Declared

theorem mem_eventIds_of_designated (h : ofSteps name owner steps = .ok action)
    (he : e ∈ action.designated) : e ∈ action.eventIds := by
  have hdeclared : action.Declared := ⟨name, owner, steps, h⟩
  rw [← hdeclared.possible_eq]
  exact hdeclared.wellFormed.designated_possible e he

end Action

end EpistemicPlanning
