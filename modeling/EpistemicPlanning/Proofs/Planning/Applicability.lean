import EpistemicPlanning.Proofs.Lever
import EpistemicPlanning.Proofs.Perspective
import EpistemicPlanning.Proofs.Plan.Provenance
import EpistemicPlanning.Proofs.Planning.Mishaps
import EpistemicPlanning.Proofs.Planning.Visited
import EpistemicPlanning.Proofs.Update.Applicability

/-!
# Applicable actions yield children

While a run expands a node with designated worlds, an action that is found applicable in the
perspective of its owner yields a child, unless there is no room for one or something is not found.
The designated worlds of the child are made of the worlds that are designated in this perspective
(`PlanningTask.applicability_agrees`).
-/
namespace EpistemicPlanning

open Planning

variable {t : PlanningTask} {c : PlannerConfig} {r r' : Run} {n : NodeId} {action : Action}
variable {a : ActionId} {seen : State}

namespace SearchTree

/-- A child of a node by an action, whose designated worlds are made of the worlds that are
designated in what its owner has seen. -/
structure ContinuedBy (g : SearchTree) (n : NodeId) (a : ActionId) (seen : State) (child : NodeId) :
    Prop where
  mem_children : child ∈ (g.node n).children
  action : (g.node child).action = some a
  parents : ∀ w, w ∈ seen.designated ↔ Update.Continued (g.node child).state g.arena w

end SearchTree

namespace Run

/-- An attempt to take an applicable action at a node with designated worlds adds a child. -/
theorem Attempt.continued (hs : r.tree.Sound t) (hn : n.index < r.tree.size)
    (hdes : ∃ w, w ∈ (r.tree.node n).state.designated) (hact : t.action? a = some action)
    (hseen : (r.tree.node n).state.perspective action.owner = .ok seen)
    (happ : (Updating.isApplicable (t := t) r.tree.arena seen a).value = .ok true)
    (h : r.Attempt t c n action a r') : r'.tree.ContinuedBy n a seen ⟨r.tree.size⟩ := by
  obtain ⟨hpossible, _, _⟩ := PointedModel.perspective_eq_ok hseen
  have hstate := (hs.state n hn).perspective hseen
  have hdes' : ∃ w, w ∈ seen.designated :=
    hdes.imp fun w hw => PointedModel.designated_subset_perspective hseen w hw
  have harena : ∀ w ∈ seen.possible, r.tree.arena.contains w = true := by
    intro w hw
    rw [hpossible] at hw
    exact Arena.contains_iff.2 (hs.inArena n hn w hw)
  cases h with
  | refused hshift hno =>
    rw [hseen] at hshift
    cases hshift
    rw [happ] at hno
    cases hno
  | fruitless hshift _ _ hupdate =>
    rw [hseen] at hshift
    cases hshift
    obtain ⟨next, hnext⟩ := Update.exists_next_of_applicable hact hstate hdes' happ hupdate
    cases hnext
  | @grown shifted next arena r₁ hshift _ _ hupdate hwatch =>
    rw [hseen] at hshift
    cases hshift
    have hnew := SearchTree.node_grown_new arena next a hn
      (rfl : (⟨r.tree.size⟩ : NodeId).index = r.tree.size)
    have hfires := (Updating.tells_isApplicable hact true happ).1 rfl
    rw [hwatch.tree_withChild]
    refine ⟨?_, by rw [hnew], fun w => ?_⟩
    · rw [SearchTree.node_grown_self arena next a hn]
      exact List.mem_append_right _ List.mem_cons_self
    · rw [hnew, SearchTree.arena_grown, Update.continued_iff hact hstate harena hupdate]
      exact ⟨fun hw => ⟨hw, hfires w hw⟩, And.left⟩

/-- With room for a child, an action that is found applicable meets with no mishap but in the update
or in the look for goal worlds. -/
theorem not_mishap {e : PlanError}
    (hseen : (r.tree.node n).state.perspective action.owner = .ok seen)
    (happ : (Updating.isApplicable (t := t) r.tree.arena seen a).value = .ok true)
    (hroom : r.tree.size < c.maxNodes)
    (hupdate : ∀ m, (Update.apply (t := t) r.tree.arena seen a).value.1 ≠ .error m)
    (hgoal : ∀ next arena,
      (Update.apply (t := t) r.tree.arena seen a).value = (.ok (some next), arena) →
        Fallible.Succeeds (next.worldsSatisfying arena t.goal)) :
    ¬r.Mishap t c n action a e := by
  intro h
  cases h with
  | perspective hshift =>
    rw [hseen] at hshift
    cases hshift
  | applicability hshift hfail =>
    rw [hseen] at hshift
    cases hshift
    rw [happ] at hfail
    cases hfail
  | crowded hfull => exact absurd hroom (Nat.not_lt.2 hfull)
  | update hshift hfail =>
    rw [hseen] at hshift
    cases hshift
    exact hupdate _ hfail
  | goal hshift hnext hfail =>
    rw [hseen] at hshift
    cases hshift
    exact (hgoal _ _ hnext).ne_error _ hfail

end Run

/-- What it is for an action to be applicable agrees with what comes of it. -/
structure PlanningTask.ApplicabilityAgrees (t : PlanningTask) : Prop where
  /-- Whatever has been remembered of dynamic events: in a state with designated worlds, an action
  is applicable when its update has a result in which every designated world is continued. -/
  update : ∀ (arena arena' : Arena) (state : State) (action : Action) (a : ActionId)
    (m m' : Memo t.outcome) (b : Bool) (result : Option State),
    t.action? a = some action → state.WellFormed →
    (∀ w ∈ state.possible, arena.contains w = true) → (∃ w, w ∈ state.designated) →
    ((Updating.isApplicable arena state a).run.run m).1 = .ok b →
    ((Update.apply arena state a).run m').1 = (.ok result, arena') →
    (b = true ↔
      ∃ next', result = some next' ∧ ∀ w ∈ state.designated, Update.Continued next' arena' w)
  /-- Trying an action that is found applicable in the perspective of its owner ends well, with room
  for a child and as long as neither the update nor the look for goal worlds fails. -/
  ends : ∀ (c : PlannerConfig) (r : Run) (n : NodeId) (action : Action) (a : ActionId)
    (seen : State), (r.tree.node n).state.perspective action.owner = .ok seen →
    (Updating.isApplicable (t := t) r.tree.arena seen a).value = .ok true →
    r.tree.size < c.maxNodes →
    (∀ m, (Update.apply (t := t) r.tree.arena seen a).value.1 ≠ .error m) →
    (∀ next arena, (Update.apply (t := t) r.tree.arena seen a).value = (.ok (some next), arena) →
      Fallible.Succeeds (next.worldsSatisfying arena t.goal)) →
    ∃ r', exec (tryAction (t := t) c n action a) r = (.ok ⟨⟩, r')
  /-- At a node with designated worlds it then yields a child, whose designated worlds are made of
  those of the perspective. -/
  child : ∀ (c : PlannerConfig) (r r' : Run) (n : NodeId) (action : Action) (a : ActionId)
    (seen : State), t.Accepted → r.Visited t c → n.index < r.tree.size →
    (∃ w, w ∈ (r.tree.node n).state.designated) → t.action? a = some action →
    (r.tree.node n).state.perspective action.owner = .ok seen →
    (Updating.isApplicable (t := t) r.tree.arena seen a).value = .ok true →
    exec (tryAction (t := t) c n action a) r = (.ok ⟨⟩, r') →
    r'.tree.ContinuedBy n a seen ⟨r.tree.size⟩

/-- In every task, applicability agrees with the product update. -/
theorem PlanningTask.applicability_agrees (t : PlanningTask) : t.ApplicabilityAgrees where
  update arena arena' state action a m m' b result hact hstate harena hdes happ happly := by
    rw [Consult.run_fst_eq_value] at happ happly
    exact Update.applicable_iff_continued hact hstate harena hdes happ happly
  ends c r n action a seen hseen happ hroom hupdate hgoal := by
    cases hexec : exec (tryAction (t := t) c n action a) r with
    | mk result r' =>
      cases result with
      | ok _ => exact ⟨r', rfl⟩
      | error e =>
        exact absurd (mishap_of_exec hexec) (Run.not_mishap hseen happ hroom hupdate hgoal)
  child c r r' n action a seen hacc hr hn hdes hact hseen happ hexec :=
    (attempt_of_exec hexec).continued (hr.sound hacc) hn hdes hact hseen happ

namespace Lever

/-- The lever in the middle as the left agent sees it: it may be at the right end. -/
def seenByLeft : State := Fallible.get (initial.perspective left) (by decide)

/-- The run for the lever when the left agent has tried to pull it in the beginning. -/
def leftTried : Run :=
  (exec (tryAction (t := task) planner.config SearchTree.root pullLeft ⟨0⟩) begun).2

/-- In the middle, pulling to the left is applicable, and the root gets a child whose designated
worlds are made of both positions that the left agent takes to be possible. -/
theorem pull_continues :
    (∃ next' arena', ((Update.apply (t := task) arena seenByLeft ⟨0⟩).run ∅).1 =
        (.ok (some next'), arena') ∧
      ∀ w ∈ seenByLeft.designated, Update.Continued next' arena' w) ∧
    leftTried.tree.ContinuedBy SearchTree.root ⟨0⟩ seenByLeft ⟨1⟩ ∧
    seenByLeft.designated.toList = [world 1, world 2] := by
  have hagrees := PlanningTask.applicability_agrees task
  have hseen : initial.perspective left = .ok seenByLeft := Fallible.eq_ok_get _ _
  have hstate : seenByLeft.WellFormed := accepted.wellFormed.perspective hseen
  have hdes : ∃ w, w ∈ seenByLeft.designated := ⟨world 1, by decide⟩
  refine ⟨?_, ?_, by decide⟩
  · obtain ⟨next', arena', hrun⟩ := Fallible.exists_eq_ok_some
      (by decide +kernel : (((Update.apply (t := task) arena seenByLeft ⟨0⟩).run
        ∅).1.1.toOption.bind id).isSome = true)
    have hiff := hagrees.update arena arena' seenByLeft pullLeft ⟨0⟩ ∅ ∅ true (some next') rfl
      hstate (by decide +kernel) hdes (by decide +kernel) hrun
    obtain ⟨_, heq, hall⟩ := hiff.1 rfl
    cases heq
    exact ⟨next', arena', hrun, hall⟩
  · have happ : (Updating.isApplicable (t := task) begun.tree.arena seenByLeft ⟨0⟩).value =
        .ok true := by decide +kernel
    have hupdate : ∀ m,
        (Update.apply (t := task) begun.tree.arena seenByLeft ⟨0⟩).value.1 ≠ .error m := by
      have hok : (Update.apply (t := task) begun.tree.arena seenByLeft ⟨0⟩).value.1.isOk =
          true := by decide +kernel
      intro m hm
      rw [hm] at hok
      cases hok
    obtain ⟨r', hexec⟩ := hagrees.ends planner.config begun SearchTree.root pullLeft ⟨0⟩ seenByLeft
      hseen happ (by decide) hupdate
      fun _ _ _ => PointedModel.succeeds_worldsSatisfying fun _ hb => nomatch hb
    obtain rfl : leftTried = r' := congrArg Prod.snd hexec
    exact hagrees.child planner.config begun leftTried SearchTree.root pullLeft ⟨0⟩ seenByLeft
      accepted (.reachable (.growing (.begun .initial))) (by decide) ⟨world 1, by decide⟩ rfl hseen
      happ hexec

end Lever

end EpistemicPlanning
