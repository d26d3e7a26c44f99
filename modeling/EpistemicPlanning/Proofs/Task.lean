import EpistemicPlanning.Proofs.Arena
import EpistemicPlanning.Proofs.PointedModel
import EpistemicPlanning.Task

/-!
# Accepted tasks

A task is accepted when its initial state is well formed, as states made of parts are, and
`PlanningTask.ofParts` took its parts. Then the initial worlds are in the arena, and the owner of
each action has a relation.
-/
namespace EpistemicPlanning

/-- No world of the arena was made of another. -/
structure Arena.Fresh (arena : Arena) : Prop where
  edges : arena.edges.size = 0
  incoming : ∀ w, (arena.world w).incoming = none
  outgoing : ∀ w, (arena.world w).outgoing = []

theorem Arena.Fresh.consistent {arena : Arena} (h : arena.Fresh) : arena.Consistent := by
  have hnoedge : ∀ e : EdgeId, ¬e.index < arena.edges.size := by
    intro e he
    rw [h.edges] at he
    exact Nat.not_lt_zero _ he
  refine ⟨fun e he => absurd he (hnoedge e), fun w e => ?_, fun w => ?_, fun w e => ?_⟩
  · simp [h.outgoing w, hnoedge e]
  · rw [h.outgoing w]
    exact List.nodup_nil
  · simp [h.incoming w, hnoedge e]

theorem State.wellFormed_of_ofParts {worlds : List WorldId} {designated : SortedSet WorldId}
    {relation : Accessibility .world} {state : State} (hbuilt : relation.Built)
    (h : ofParts worlds designated relation = .ok state) : state.WellFormed :=
  PointedModel.wellFormed_of_ofParts hbuilt (Fallible.mapError_eq_ok h)

namespace PlanningTask

/-- The check of the parts took a task with a well-formed initial state. -/
structure Accepted (t : PlanningTask) : Prop where
  wellFormed : t.initial.WellFormed
  parts : ofParts t.predicates t.arena t.initial t.actions t.goal = .ok t

variable {t : PlanningTask}

theorem action?_eq_some {a : ActionId} {action : Action} :
    t.action? a = some action ↔ a.index < UInt32.size ∧ t.actions[a.index]? = some action := by
  unfold action?
  split
  · next h => simp [h]
  · next h => simp [h]

theorem mem_of_action? {a : ActionId} {action : Action} (hact : t.action? a = some action) :
    action ∈ t.actions := List.mem_of_getElem? (action?_eq_some.1 hact).2

theorem ofParts_eq_ok {predicates : PredicateTable} {arena : Arena} {initial : State}
    {actions : List Action} {goal : Formula}
    (h : ofParts predicates arena initial actions goal = .ok t) :
    (∀ w ∈ initial.possible, arena.contains w = true) ∧
      (∀ action ∈ actions, initial.relation.hasAgent action.owner = true) ∧
      t = ⟨predicates, arena, initial, actions, goal⟩ := by
  unfold ofParts at h
  split at h
  · cases h
  · next hworlds =>
    split at h
    · cases h
    · next howners =>
      refine ⟨fun w hw => ?_, fun action hact => ?_, (Except.ok.inj h).symm⟩
      · simpa using List.find?_eq_none.1 hworlds w hw
      · simpa using List.find?_eq_none.1 howners action hact

theorem Accepted.inArena (h : t.Accepted) :
    ∀ w ∈ t.initial.possible, t.arena.contains w = true := (ofParts_eq_ok h.parts).1

theorem Accepted.hasOwner (h : t.Accepted) {a : ActionId} {action : Action}
    (hact : t.action? a = some action) : t.initial.relation.hasAgent action.owner = true :=
  (ofParts_eq_ok h.parts).2.1 action (mem_of_action? hact)

end PlanningTask

end EpistemicPlanning
