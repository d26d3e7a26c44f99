import EpistemicPlanning.Formula.Truth
import EpistemicPlanning.Predicate.Effects
import EpistemicPlanning.Predicate.Table

/-!
# Events

An event can happen at a world where its precondition holds, and then has its effects. Both are
either the same at every world or worked out anew from the world's valuation and the task.
-/
namespace EpistemicPlanning

/-- What an event needs and does at one world. -/
structure ResolvedEvent where
  precondition : Formula
  effects : Effects
  deriving Inhabited

/-! ### What events see of a task -/

/-- An event as it is seen by another. -/
structure EventView where
  name : String
  /-- What the event needs and does, if this is the same at every world. -/
  fixed : Option ResolvedEvent

/-- An action as it is seen by an event. -/
structure ActionView where
  name : String
  owner : Agent
  events : List EventView
  model : PointedModel .event

/-- A task as it is seen by an event. The arena comes with the marks that an earlier search has left
in it, and the initial state with its cuts. -/
structure TaskView where
  predicates : PredicateTable
  arena : Arena
  initial : State
  actions : List ActionView
  goal : Formula

/-! ### Events -/

/-- How an event comes by its precondition and effects. -/
inductive EventRule where
  /-- The same at every world. -/
  | fixed (outcome : ResolvedEvent)
  /-- Worked out from the valuation of the world and the task. -/
  | perWorld (resolve : Valuation → TaskView → ResolvedEvent)

namespace EventRule

/-- Whether the outcome of a rule depends on the world. -/
def isDynamic : EventRule → Bool
  | .fixed _ => false
  | .perWorld _ => true

/-- What a rule gives without looking at a world. -/
def fixed? : EventRule → Option ResolvedEvent
  | .fixed outcome => some outcome
  | .perWorld _ => none

/-- What the event needs and does at a world with a given valuation. -/
def resolve (valuation : Valuation) (task : TaskView) : EventRule → ResolvedEvent
  | .fixed outcome => outcome
  | .perWorld resolve => resolve valuation task

end EventRule

/-- A node of an action. -/
structure Event where
  name : String
  rule : EventRule

/-- An event as another sees it. -/
def Event.view (e : Event) : EventView := ⟨e.name, e.rule.fixed?⟩

end EpistemicPlanning
