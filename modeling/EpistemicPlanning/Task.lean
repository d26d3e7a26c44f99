import EpistemicPlanning.Action
import EpistemicPlanning.Formula.Truth
import EpistemicPlanning.Predicate.Table

/-!
# Planning tasks

A task is what a planner is given: a state to start from, the actions that agents may take, and a
goal. Its worlds live in an arena of its own.
-/
namespace EpistemicPlanning

/-- The state that a pointed model's parts make up. -/
def State.ofParts (worlds : List WorldId) (designated : SortedSet WorldId)
    (relation : Accessibility .world) : Except ValidationError State :=
  (PointedModel.ofParts worlds designated relation).mapError fun d => .malformedState (.shape d)

/-- Initial state, actions and goal; the handle of an action is its position. -/
structure PlanningTask where
  predicates : PredicateTable
  arena : Arena
  initial : State
  actions : List Action
  goal : Formula

namespace PlanningTask

/-- The task with the given parts, or the first of its defects: the initial worlds are in the
arena, and the initial state has a relation for the owner of each action. -/
def ofParts (predicates : PredicateTable) (arena : Arena) (initial : State)
    (actions : List Action) (goal : Formula) : Except ValidationError PlanningTask :=
  match initial.possible.find? fun w => !arena.contains w with
  | some stray => .error (.malformedState (.notInArena stray))
  | none =>
    match actions.find? fun a => !initial.relation.hasAgent a.owner with
    | some a => .error (.malformedAction a.name (.ownerUnrelated a.owner))
    | none => .ok ⟨predicates, arena, initial, actions, goal⟩

/-- The action with a given handle. Only words of 32 bits are handles of actions. -/
def action? (t : PlanningTask) (a : ActionId) : Option Action :=
  if a.index < UInt32.size then t.actions[a.index]? else none

/-- The handles of the actions in order; actions beyond the last word have none. -/
def actionIds (t : PlanningTask) : List ActionId :=
  (List.range (min t.actions.length UInt32.size)).map Handle.mk

/-- The actions with their handles, in order. -/
def numbered (t : PlanningTask) : List (Action × ActionId) := t.actions.zip t.actionIds

/-- A task as an event sees it. -/
def view (t : PlanningTask) : TaskView :=
  ⟨t.predicates, t.arena, t.initial, t.actions.map Action.view, t.goal⟩

/-- The agents of the initial state, of the actions and of the goal. -/
def agents (t : PlanningTask) : SortedSet Agent :=
  SortedSet.ofList (t.initial.agents ++ t.actions.flatMap fun a => a.model.agents) ∪ t.goal.agents

/-- The agent with a given name. -/
def agent? (t : PlanningTask) (name : String) : Option Agent :=
  if t.agents.contains ⟨name⟩ then some ⟨name⟩ else none

end PlanningTask

end EpistemicPlanning
