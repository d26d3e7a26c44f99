import EpistemicPlanning.Proofs.Crowd
import EpistemicPlanning.Proofs.Update.Product

/-!
# Product update is atomic

As long as every world and every edge has a word for itself, an update that fails or has no result
leaves the arena as it was, and one that has a result only appends to it (`Arena.Appended`). This is
so although an update adds worlds before it links them: once it has started to add worlds, nothing
fails any more (`Update.apply_is_atomic`). When two new worlds have to share the last word, the update
fails and its worlds stay behind (`Crowd.toss_leaves_worlds`).
-/
namespace EpistemicPlanning

variable {t : PlanningTask} {arena arena' : Arena} {state next' : State} {a : ActionId}

namespace Update

/-- Whatever has been remembered of dynamic events, an update takes effect as a whole or not at
all, provided that every world and every edge has a word for itself afterwards. -/
structure IsAtomic (t : PlanningTask) (arena : Arena) (state : State) (a : ActionId) : Prop where
  failed : ∀ (m : Memo t.outcome) (e : PlanError) (arena' : Arena),
    ((applyInSteps arena state a).run m).1 = (.error e, arena') → arena'.Numbered →
      arena' = arena
  inapplicable : ∀ (m : Memo t.outcome) (arena' : Arena),
    ((applyInSteps arena state a).run m).1 = (.ok none, arena') → arena' = arena
  appended : ∀ (m : Memo t.outcome) (next' : State) (arena' : Arena),
    ((applyInSteps arena state a).run m).1 = (.ok (some next'), arena') → arena'.Numbered →
      arena'.Appended arena
  /-- The steps come to what the update is as a whole. -/
  whole : ∀ m : Memo t.outcome, ((applyInSteps arena state a).run m).1.2.Numbered →
    (applyInSteps arena state a).run m =
      ((((apply arena state a).run m).1.1.mapError .model, ((apply arena state a).run m).1.2),
        ((apply arena state a).run m).2)
  /-- Whatever the candidates, no step fails from the first lookup for them on, neither when worlds
  are linked nor when the state is made of them, if there are words for all new worlds and edges. -/
  succeeds : ∀ (action : Action) (cs : List Candidate) (arena' : Arena),
    arena'.worlds.size + cs.length ≤ UInt32.size → arena'.edges.size + cs.length ≤ UInt32.size →
      ∃ next', (build state action a cs).exec arena' = (.ok next', grow arena' action.owner a cs)

/-- An update without a result leaves the arena alone, however many words are left. -/
theorem eq_of_run_none {m : Memo t.outcome}
    (h : ((applyInSteps arena state a).run m).1 = (.ok none, arena')) : arena' = arena := by
  rcases run_apply_cases arena state a m with ⟨_, _, _, _, hsteps⟩ |
    ⟨action, cs, _, _, _, _, hsteps⟩
  · rw [hsteps] at h
    exact (Prod.mk.inj h).2.symm
  · -- building a state gives one or fails
    rw [hsteps] at h
    cases hbuild : (build state action a cs).exec arena with
    | mk result arena'' =>
      rw [exec_map_build hbuild] at h
      cases result <;> cases h

/-- The update of a state over an arena is atomic, whichever action it is asked for. -/
theorem apply_is_atomic (harena : ∀ w ∈ state.possible, arena.contains w = true) (a : ActionId) :
    IsAtomic t arena state a where
  failed m e arena' h hnumbered := by
    have hall : ((applyInSteps (t := t) arena state a).run m).1.2.Numbered := by rwa [h]
    rw [run_applyInSteps hall] at h
    obtain ⟨hresult, rfl⟩ := Prod.mk.inj h
    obtain ⟨e', herror, _⟩ := Fallible.mapError_eq_error hresult
    rw [Consult.run_fst_eq_value] at herror ⊢
    exact value_apply_unchanged (Prod.ext herror rfl) fun _ heq => nomatch heq
  inapplicable _ _ h := eq_of_run_none h
  appended m next' arena' h hnumbered := by
    have hall : ((applyInSteps (t := t) arena state a).run m).1.2.Numbered := by rwa [h]
    rw [run_applyInSteps hall] at h
    obtain ⟨hresult, rfl⟩ := Prod.mk.inj h
    have hok := Fallible.mapError_eq_ok hresult
    rw [Consult.run_fst_eq_value] at hok ⊢
    have hvalue : (apply (t := t) arena state a).value = (.ok (some next'), _) := Prod.ext hok rfl
    obtain ⟨action, hact⟩ := exists_action_of_value hvalue
    exact appended_of_value hact harena hvalue
  whole _ h := run_applyInSteps h
  succeeds _ _ _ hworlds hedges := ⟨_, exec_build hworlds hedges⟩

end Update

namespace Lever

/-- The arena once the lever has been pulled to the left. -/
def arenaPulled : Arena := (Update.applyInSteps (t := task) Lever.arena initial ⟨0⟩).value.2

/-- When the lever has been pulled to the left, the worlds of the initial state have steps to new
worlds, and stay as they are while it is pulled to the right instead: each gains one more step. -/
theorem pull_right_appends : Update.IsAtomic task arenaPulled initial ⟨1⟩ ∧
    (∃ next' arena', ((Update.applyInSteps (t := task) arenaPulled initial ⟨1⟩).run ∅).1 =
      (.ok (some next'), arena') ∧ arena'.Numbered ∧ arena'.Appended arenaPulled ∧
      (arenaPulled.world (world 1)).outgoing = [⟨1⟩] ∧
      (arena'.world (world 1)).outgoing = [⟨1⟩, ⟨4⟩]) := by
  have hatomic : Update.IsAtomic task arenaPulled initial ⟨1⟩ :=
    Update.apply_is_atomic (by decide +kernel) ⟨1⟩
  have hout : (((Update.applyInSteps (t := task) arenaPulled initial ⟨1⟩).run ∅).1.2.world
      (world 1)).outgoing = [⟨1⟩, ⟨4⟩] := by decide +kernel
  have hnumbered : ((Update.applyInSteps (t := task) arenaPulled initial ⟨1⟩).run
      ∅).1.2.Numbered := ⟨by decide +kernel, by decide +kernel⟩
  obtain ⟨next', arena', hrun⟩ := Fallible.exists_eq_ok_some
    (by decide +kernel : (((Update.applyInSteps (t := task) arenaPulled initial ⟨1⟩).run
      ∅).1.1.toOption.bind id).isSome = true)
  rw [hrun] at hout hnumbered
  exact ⟨hatomic, next', arena', hrun, hnumbered, hatomic.appended ∅ next' arena' hrun hnumbered,
    by decide +kernel, hout⟩

end Lever

namespace Crowd

/-- The toss of a coin in the crowd fails, and leaves the arena with two more worlds. -/
theorem toss_leaves_worlds :
    initial.WellFormed ∧ (∀ w ∈ initial.possible, Crowd.arena.contains w = true) ∧
      ((Update.applyInSteps (t := task) Crowd.arena initial ⟨0⟩).run ∅).1 =
        (.error (.validation (.malformedState (.shape .duplicateNode))), overfull) ∧
      overfull ≠ Crowd.arena := by
  refine ⟨accepted.wellFormed, accepted.inArena, ?_, fun heq => ?_⟩
  · rw [run_applyInSteps]
  · have hsize := congrArg (·.worlds.size) heq
    rw [size_overfull, size_worlds_arena] at hsize
    exact absurd hsize (by decide)

end Crowd

end EpistemicPlanning
