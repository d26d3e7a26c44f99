import EpistemicPlanning.Event
import EpistemicPlanning.PointedModel

/-!
# Actions

An action belongs to the agent who performs it. It is a pointed model over events: one of the
designated events happens, and other agents may take it for a different event.

An action is declared step by step (`ActionStep`) and checked at the end (`Action.ofSteps`).
-/
namespace EpistemicPlanning

/-- An action with its events; the handle of an event is its position. -/
structure Action where
  name : String
  owner : Agent
  events : List Event
  model : PointedModel .event

namespace Action

/-- The event with a given handle. -/
def event? (a : Action) (e : EventId) : Option Event := a.events[e.index]?

/-- The handles of the events in order. -/
def eventIds (a : Action) : List EventId := (List.range a.events.length).map Handle.mk

/-- The designated events. -/
def designated (a : Action) : SortedSet EventId := a.model.designated

/-- Whether an event is designated. -/
def isDesignated (a : Action) (e : EventId) : Bool := a.model.isDesignated e

/-- What each agent takes for what. -/
def relation (a : Action) : Accessibility .event := a.model.relation

/-- An action as an event sees it. -/
def view (a : Action) : ActionView := ⟨a.name, a.owner, a.events.map Event.view, a.model⟩

end Action

/-- One step of the declaration of an action. -/
inductive ActionStep where
  /-- Adds an event, whose handle is the number of events before it. -/
  | event (e : Event)
  /-- Designates an event, added already or not. -/
  | designate (e : EventId)
  /-- Designates the events added so far. -/
  | designateAll
  /-- Adds an agent to the relation. -/
  | observer (a : Agent)
  /-- Declares that an agent cannot tell two events apart. -/
  | indistinguishable (a : Agent) (e f : EventId)

/-- What has been declared of an action. -/
structure ActionDraft where
  events : List Event
  designated : SortedSet EventId
  observers : SortedSet Agent
  declared : List (Agent × EventId × EventId)

namespace ActionDraft

/-- The draft of an action of which only the owner, who always observes it, is known. -/
def initial (owner : Agent) : ActionDraft := ⟨[], ∅, SortedSet.singleton owner, []⟩

/-- The handles of the events declared so far. -/
def eventIds (d : ActionDraft) : List EventId := (List.range d.events.length).map Handle.mk

/-- The words that the events declared so far get as handles. -/
def words (d : ActionDraft) : List EventId := d.eventIds.map Handle.word

/-! How events get their handles is a parameter of what follows. -/

/-- The draft after one more step. -/
def extendBy (ids : ActionDraft → List EventId) (d : ActionDraft) : ActionStep → ActionDraft
  | .event e => { d with events := d.events ++ [e] }
  | .designate e => { d with designated := d.designated.insert e }
  | .designateAll => { d with designated := SortedSet.ofList (ids d) ∪ d.designated }
  | .observer a => { d with observers := d.observers.insert a }
  | .indistinguishable a e f =>
    { d with observers := d.observers.insert a, declared := d.declared ++ [(a, e, f)] }

/-- The relation of the declared agents and pairs over the declared events. -/
def relationOver (ids : List EventId) (d : ActionDraft) : Accessibility .event :=
  d.declared.foldl (fun r (a, e, f) => r.link a e f)
    (Accessibility.discrete d.observers.toList ids)

/-- The model of a draft, or the first of its defects: there are events, some are designated, the
declared pairs are of events, and so are the designated handles. -/
def modelOver (ids : List EventId) (d : ActionDraft) :
    Except ActionDefect (PointedModel .event) :=
  if d.events.isEmpty then .error .noEvents
  else if d.designated.isEmpty then .error .noDesignated
  else
    match d.declared.find? fun (_, e, f) =>
        d.events.length ≤ e.index || d.events.length ≤ f.index with
    | some (_, e, f) => .error (.unknownEvent e f)
    | none => (PointedModel.ofParts ids d.designated (d.relationOver ids)).mapError .shape

/-- The draft after one more step. -/
def extend (d : ActionDraft) (step : ActionStep) : ActionDraft := d.extendBy eventIds step

/-- The relation of the declared agents and pairs over the declared events. -/
def relation (d : ActionDraft) : Accessibility .event := d.relationOver d.eventIds

/-- The model of a draft, or the first of its defects. -/
def model (d : ActionDraft) : Except ActionDefect (PointedModel .event) := d.modelOver d.eventIds

end ActionDraft

namespace Action

/-- The action that some steps declare. How events get their handles is a parameter. -/
def ofStepsBy (ids : ActionDraft → List EventId) (name : String) (owner : Agent)
    (steps : List ActionStep) : Except ValidationError Action :=
  let draft := steps.foldl (ActionDraft.extendBy ids) (.initial owner)
  match draft.modelOver (ids draft) with
  | .ok model => .ok ⟨name, owner, draft.events, model⟩
  | .error defect => .error (.malformedAction name defect)

/-- The action that some steps declare, if handles never run out. -/
def ofSteps (name : String) (owner : Agent) (steps : List ActionStep) :
    Except ValidationError Action := ofStepsBy ActionDraft.eventIds name owner steps

/-- The action that some steps declare, with handles that are words. -/
def ofStepsInWords (name : String) (owner : Agent) (steps : List ActionStep) :
    Except ValidationError Action := ofStepsBy ActionDraft.words name owner steps

end Action

end EpistemicPlanning
