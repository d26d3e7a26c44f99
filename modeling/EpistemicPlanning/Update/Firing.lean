import EpistemicPlanning.Memo
import EpistemicPlanning.Task

/-!
# Which events can happen

An event fires at a world of a state when its precondition holds there. The outcomes of dynamic
events are asked for through a memo, under the world, the action and the event, so each of them is
worked out once.
-/
namespace EpistemicPlanning

/-- A dynamic event at a world, with the valuation that its outcome depends on. -/
structure EventQuery where
  world : WorldId
  action : ActionId
  event : EventId
  valuation : Valuation
  deriving DecidableEq

namespace PlanningTask

/-- The event of an action, both given by handle. -/
def event? (t : PlanningTask) (a : ActionId) (e : EventId) : Option Event :=
  (t.action? a).bind fun act => act.event? e

/-- All events of all actions, in order. -/
def eventHandles (t : PlanningTask) : List (ActionId × EventId) :=
  t.numbered.flatMap fun (act, a) => act.eventIds.map fun e => (a, e)

/-- The outcome of an event at a valuation. -/
def outcome (t : PlanningTask) (q : EventQuery) : ResolvedEvent :=
  match t.event? q.action q.event with
  | some event => event.rule.resolve q.valuation t.view
  | none => default

end PlanningTask

/-- A computation that may ask for outcomes of dynamic events and may fail to find something. -/
abbrev Updating (t : PlanningTask) (α : Type) := ExceptT ModelError (Consult t.outcome) α

namespace Updating

variable {t : PlanningTask}

/-- The computation with a given result. -/
def ofExcept {α : Type} (x : Except ModelError α) : Updating t α := ExceptT.mk (pure x)

/-- The precondition and effects of an event at a world. -/
def resolve (arena : Arena) (w : WorldId) (a : ActionId) (e : EventId) :
    Updating t ResolvedEvent :=
  match t.event? a e with
  | none => throw (.actionNotFound a)
  | some event =>
    match event.rule with
    | .fixed outcome => pure outcome
    | .perWorld _ => ExceptT.lift (Consult.ask ⟨w, a, e, (arena.world w).valuation⟩)

/-- The outcome of an event at a world of a state, if its precondition holds there. -/
def fire (arena : Arena) (state : State) (w : WorldId) (a : ActionId) (e : EventId) :
    Updating t (Option ResolvedEvent) := do
  let outcome ← resolve arena w a e
  if ← ofExcept (outcome.precondition.evaluate arena state w) then return some outcome
  else return none

/-- Whether an event fires at a world of a state. -/
def fires (arena : Arena) (state : State) (w : WorldId) (a : ActionId) (e : EventId) :
    Updating t Bool := do
  return (← fire arena state w a e).isSome

/-- Whether at every designated world of a state some designated event of an action fires. To ask
whether its owner may take the action, ask in the owner's perspective. -/
def isApplicable (arena : Arena) (state : State) (a : ActionId) : Updating t Bool :=
  match t.action? a with
  | none => throw (.actionNotFound a)
  | some action =>
    state.designated.toList.allM fun w =>
      action.designated.toList.anyM fun e => fires arena state w a e

/-- Whether some event of some action fires at a world of a state. -/
def hasApplicableEvent (arena : Arena) (state : State) (w : WorldId) : Updating t Bool :=
  t.eventHandles.anyM fun (a, e) => fires arena state w a e

end Updating

end EpistemicPlanning
