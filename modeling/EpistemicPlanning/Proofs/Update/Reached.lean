import EpistemicPlanning.Proofs.Formula.Totality
import EpistemicPlanning.Proofs.Update.Product

/-!
# States that come of operations

A state is made of parts, seen as an agent sees it, or comes of a product update. Whatever the
sequence of these operations (`State.Reached`), the state is self-contained: it speaks of its own
worlds only, and no lookup leads out of it.
-/
namespace EpistemicPlanning

variable {kind : HandleKind}

namespace PointedModel

/-- A model speaks of its own possible nodes only, as far as its designated nodes, its relation and
what its agents can reach are concerned. -/
structure SelfContained (m : PointedModel kind) : Prop where
  nodup : m.possible.Nodup
  designated : ∀ n ∈ m.designated, n ∈ m.possible
  nodes : ∀ n, n ∈ m.relation.nodes ↔ n ∈ m.possible
  /-- A stored link joins two possible nodes and has its lower end first. -/
  links : ∀ a ls, m.relation.links.find? a = some ls → ∀ l ∈ ls,
    l.low ∈ m.possible ∧ l.high ∈ m.possible ∧ l.low.index ≤ l.high.index
  /-- Every agent stores the link from each possible node to itself. -/
  loops : ∀ a ls, m.relation.links.find? a = some ls → ∀ n ∈ m.possible, Link.loop n ∈ ls
  /-- What an agent cannot tell apart from a possible node is found; it contains the node, and only
  possible nodes. -/
  accessible : ∀ a, m.relation.hasAgent a = true → ∀ n ∈ m.possible,
    ∃ near, m.relation.accessible a n = .ok near ∧ n ∈ near ∧ ∀ n' ∈ near, n' ∈ m.possible
  /-- The nodes that an agent's perspective designates are possible. -/
  perspective : ∀ a shifted, m.perspective a = .ok shifted →
    shifted.possible = m.possible ∧ ∀ n ∈ shifted.designated, n ∈ m.possible

theorem WellFormed.selfContained {m : PointedModel kind} (h : m.WellFormed) :
    m.SelfContained where
  nodup := h.nodup
  designated := h.designated_possible
  nodes := h.nodes_iff
  links a ls hls l hl := by
    have hadjacent : m.relation.Adjacent a l.low l.high := ⟨ls, hls, by rwa [Link.of_low_high]⟩
    obtain ⟨hlow, hhigh⟩ := h.endsKnown a l.low l.high hadjacent
    exact ⟨(h.nodes_iff _).1 hlow, (h.nodes_iff _).1 hhigh, l.ordered⟩
  loops a ls hls n hn := (h.loop_mem_iff (SortedMap.find?_eq_some_iff.1 hls)).2 hn
  accessible a ha n hn := by
    obtain ⟨near, hnear⟩ := Accessibility.succeeds_accessible ha n
    have hself : n ∈ near := (Accessibility.mem_of_accessible hnear).2 .refl
    exact ⟨near, hnear, hself, fun n' hn' => h.possible_of_accessible hn hnear hn'⟩
  perspective a shifted hshift := by
    obtain ⟨hpossible, _, _⟩ := perspective_eq_ok hshift
    refine ⟨hpossible, fun n hn => ?_⟩
    rw [← hpossible]
    exact (h.perspective hshift).designated_possible n hn

end PointedModel

namespace Update

variable {t : PlanningTask} {arena arena' : Arena} {state next' : State} {a : ActionId}

/-- The state that an update gives is well formed, whatever the state before it. -/
theorem wellFormed_of_apply
    (h : (apply (t := t) arena state a).value = (.ok (some next'), arena')) :
    next'.WellFormed := by
  cases hact : t.action? a with
  | none =>
    rw [apply, hact] at h
    cases h
  | some action =>
    obtain ⟨cs, _, _, rfl, _⟩ := value_apply_eq_some hact h
    exact wellFormed_next

end Update

namespace State

/-- The states that come of making a state of parts, with a relation that the operations of
relations assemble, of seeing a state as one of its agents, and of updates, whatever has been
remembered of dynamic events. -/
inductive Reached : State → Prop
  | made {worlds : List WorldId} {designated : SortedSet WorldId}
      {relation : Accessibility .world} {state : State} (hbuilt : relation.Built)
      (h : ofParts worlds designated relation = .ok state) : Reached state
  | seen {state shifted : State} {a : Agent} (h : Reached state)
      (hshift : state.perspective a = .ok shifted) : Reached shifted
  | updated {t : PlanningTask} {arena arena' : Arena} {state next' : State} {a : ActionId}
      {m : Memo t.outcome} (h : Reached state)
      (hupdate : ((Update.apply arena state a).run m).1 = (.ok (some next'), arena')) :
      Reached next'

theorem Reached.wellFormed {state : State} (h : state.Reached) : state.WellFormed := by
  induction h with
  | made hbuilt h => exact wellFormed_of_ofParts hbuilt h
  | seen _ hshift ih => exact ih.perspective hshift
  | updated _ hupdate _ =>
    rw [Consult.run_fst_eq_value] at hupdate
    exact Update.wellFormed_of_apply hupdate

/-- Every state that comes of the operations is self-contained. -/
theorem selfContained_of_reached {state : State} (h : state.Reached) : state.SelfContained :=
  h.wellFormed.selfContained

end State

namespace Lever

/-- Once an agent has pulled the lever to the left, the state is self-contained. -/
theorem pulled_selfContained :
    ∃ shifted next' arena', initial.perspective left = .ok shifted ∧
      ((Update.apply (t := task) arena shifted ⟨0⟩).run ∅).1 = (.ok (some next'), arena') ∧
      next'.SelfContained := by
  have hshift := Fallible.eq_ok_get (initial.perspective left) (by decide)
  have hsome : (((Update.apply (t := task) arena (Fallible.get (initial.perspective left)
      (by decide)) ⟨0⟩).run ∅).1.1.toOption.bind id).isSome = true := by decide +kernel
  obtain ⟨next', hnext⟩ := Option.isSome_iff_exists.1 hsome
  obtain ⟨result, hresult, rfl⟩ := Option.bind_eq_some_iff.1 hnext
  cases hrun : ((Update.apply (t := task) arena (Fallible.get (initial.perspective left)
      (by decide)) ⟨0⟩).run ∅).1 with
  | mk answer arena' =>
    rw [hrun] at hresult
    cases answer with
    | error e => cases hresult
    | ok result =>
      cases hresult
      exact ⟨_, next', arena', hshift, hrun,
        State.selfContained_of_reached
          (.updated (.seen (.made relation_built initial_eq) hshift) hrun)⟩

end Lever

end EpistemicPlanning
