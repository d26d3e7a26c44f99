import EpistemicPlanning.Proofs.Update.Allocation
import EpistemicPlanning.Proofs.Update.Firing

/-!
# The candidates of a product update

The candidates are the pairs of a world and an event that fire there, in the order in which the
pairs are listed (`map_pair_candidates`). An update has a result when some candidate is designated
(`value_apply`).
-/
namespace EpistemicPlanning

variable {t : PlanningTask} {arena : Arena} {state : State} {action : Action} {a : ActionId}

namespace PlanningTask

instance (w : WorldId) (e : EventId) : Decidable (t.Fires arena state w a e) :=
  match h : t.outcomeAt? arena w a e with
  | none => isFalse fun ⟨o, ho, _⟩ => by
    rw [h] at ho
    cases ho
  | some o =>
    decidable_of_iff (o.precondition.evaluate arena state w = .ok true)
      ⟨fun heval => ⟨o, h, heval⟩, fun ⟨o', ho', heval⟩ => by
        rw [h] at ho'
        cases ho'
        exact heval⟩

/-- An event of an action has a precondition whose truth at a world can be told. -/
def Decided (t : PlanningTask) (arena : Arena) (state : State) (w : WorldId) (a : ActionId)
    (e : EventId) : Prop :=
  ∃ outcome b, t.outcomeAt? arena w a e = some outcome ∧
    outcome.precondition.evaluate arena state w = .ok b

theorem decided_iff {w : WorldId} {e : EventId} :
    t.Decided arena state w a e ↔
      ∃ fired, (Updating.fire (t := t) arena state w a e).value = .ok fired := by
  constructor
  · rintro ⟨o, b, ho, heval⟩
    cases b with
    | true => exact ⟨some o, Updating.value_fire_eq_some.2 ⟨ho, heval⟩⟩
    | false => exact ⟨none, Updating.value_fire_eq_none.2 ⟨o, ho, heval⟩⟩
  · rintro ⟨fired, h⟩
    cases fired with
    | some o =>
      obtain ⟨ho, heval⟩ := Updating.value_fire_eq_some.1 h
      exact ⟨o, true, ho, heval⟩
    | none =>
      obtain ⟨o, ho, heval⟩ := Updating.value_fire_eq_none.1 h
      exact ⟨o, false, ho, heval⟩

end PlanningTask

/-- The world and the event that a candidate is made of. -/
def Candidate.pair (c : Candidate) : WorldId × EventId := (c.parent, c.event)

/-- What a candidate of a firing pair carries: the changed valuation, and whether both the world
and the event are designated. -/
structure Candidate.Correct (t : PlanningTask) (arena : Arena) (state : State) (action : Action)
    (a : ActionId) (c : Candidate) : Prop where
  fires : t.Fires arena state c.parent a c.event
  valuation : ∀ outcome, t.outcomeAt? arena c.parent a c.event = some outcome →
    c.valuation = (arena.world c.parent).valuation.apply outcome.effects
  designated : c.designated = true ↔ c.parent ∈ state.designated ∧ c.event ∈ action.designated

namespace Update

/-- The pairs that fire, world by world. -/
def firing (t : PlanningTask) (arena : Arena) (state : State) (action : Action) (a : ActionId) :
    List (WorldId × EventId) :=
  (pairs state action).filter fun p => t.Fires arena state p.1 a p.2

theorem value_candidates_cons {w : WorldId} {e : EventId} {rest : List (WorldId × EventId)} :
    (candidates (t := t) arena state action a ((w, e) :: rest)).value =
      (Updating.fire (t := t) arena state w a e).value >>= fun fired =>
        (candidates (t := t) arena state action a rest).value.map fun others =>
          match fired with
          | none => others
          | some outcome =>
            ⟨w, e, (arena.world w).valuation.apply outcome.effects,
              state.isDesignated w && action.isDesignated e⟩ :: others := by
  rw [candidates, Updating.value_bind]
  congr 1
  funext fired
  rw [Updating.value_bind]
  cases (candidates (t := t) arena state action a rest).value with
  | error e => rfl
  | ok others => cases fired <;> rfl

/-- The candidates stand for the firing pairs among those asked about, in order. -/
theorem map_pair_candidates {ps : List (WorldId × EventId)} {cs : List Candidate}
    (h : (candidates (t := t) arena state action a ps).value = .ok cs) :
    cs.map Candidate.pair = ps.filter fun p => t.Fires arena state p.1 a p.2 := by
  induction ps generalizing cs with
  | nil =>
    cases h
    rfl
  | cons p rest ih =>
    obtain ⟨w, e⟩ := p
    rw [value_candidates_cons] at h
    obtain ⟨fired, hfired, h⟩ := Fallible.bind_eq_ok h
    obtain ⟨others, hothers, rfl⟩ := Fallible.map_eq_ok h
    have hrest := ih hothers
    cases fired with
    | none =>
      have hno : ¬t.Fires arena state w a e := by
        rintro ⟨o, ho⟩
        rw [Updating.value_fire_eq_some.2 ho] at hfired
        cases hfired
      rw [List.filter_cons_of_neg (by simpa using hno)]
      exact hrest
    | some outcome =>
      have hyes : t.Fires arena state w a e := ⟨outcome, Updating.value_fire_eq_some.1 hfired⟩
      rw [List.filter_cons_of_pos (by simpa using hyes), ← hrest]
      rfl

theorem correct_candidates {ps : List (WorldId × EventId)} {cs : List Candidate}
    (h : (candidates (t := t) arena state action a ps).value = .ok cs) :
    ∀ c ∈ cs, c.Correct t arena state action a := by
  induction ps generalizing cs with
  | nil =>
    cases h
    simp
  | cons p rest ih =>
    obtain ⟨w, e⟩ := p
    rw [value_candidates_cons] at h
    obtain ⟨fired, hfired, h⟩ := Fallible.bind_eq_ok h
    obtain ⟨others, hothers, rfl⟩ := Fallible.map_eq_ok h
    cases fired with
    | none => exact ih hothers
    | some outcome =>
      obtain ⟨ho, heval⟩ := Updating.value_fire_eq_some.1 hfired
      intro c hc
      rcases List.mem_cons.1 hc with rfl | hc
      · refine ⟨⟨outcome, ho, heval⟩, fun o ho' => ?_, ?_⟩
        · rw [ho] at ho'
          cases ho'
          rfl
        · simp [PointedModel.isDesignated, Action.isDesignated, Action.designated]
      · exact ih hothers c hc

/-- All candidates can be told exactly when all preconditions can. -/
theorem value_candidates_eq_ok_iff {ps : List (WorldId × EventId)} :
    (∃ cs, (candidates (t := t) arena state action a ps).value = .ok cs) ↔
      ∀ p ∈ ps, t.Decided arena state p.1 a p.2 := by
  induction ps with
  | nil =>
    constructor
    · intro _ p hp
      cases hp
    · intro _
      exact ⟨[], rfl⟩
  | cons p rest ih =>
    obtain ⟨w, e⟩ := p
    rw [List.forall_mem_cons, ← ih, PlanningTask.decided_iff, value_candidates_cons]
    constructor
    · rintro ⟨cs, h⟩
      obtain ⟨fired, hfired, h⟩ := Fallible.bind_eq_ok h
      obtain ⟨others, hothers, _⟩ := Fallible.map_eq_ok h
      exact ⟨⟨fired, hfired⟩, others, hothers⟩
    · rintro ⟨⟨fired, hfired⟩, others, hothers⟩
      rw [hfired, hothers]
      exact ⟨_, rfl⟩

/-- What an update answers, in terms of its candidates. -/
theorem value_apply (hact : t.action? a = some action) :
    (apply (t := t) arena state a).value =
      match (candidates (t := t) arena state action a (pairs state action)).value with
      | .error e => (.error e, arena)
      | .ok cs =>
        if cs.any Candidate.designated then
          (.ok (some (next arena state action cs)), grow arena action.owner a cs)
        else (.ok none, arena) := by
  unfold apply
  rw [hact]
  dsimp only
  rw [Consult.value_bind]
  change (match (candidates (t := t) arena state action a (pairs state action)).value with
    | .error e => _ | .ok cs => _ : Consult t.outcome _).value = _
  cases (candidates (t := t) arena state action a (pairs state action)).value with
  | error e => rfl
  | ok cs =>
    dsimp only
    split <;> rfl

/-- A successful update made its candidates' worlds, some of which are designated. -/
theorem value_apply_eq_some {next' : State} {arena' : Arena} (hact : t.action? a = some action)
    (h : (apply (t := t) arena state a).value = (.ok (some next'), arena')) :
    ∃ cs, (candidates (t := t) arena state action a (pairs state action)).value = .ok cs ∧
      cs.any Candidate.designated = true ∧ next' = next arena state action cs ∧
      arena' = grow arena action.owner a cs := by
  rw [value_apply hact] at h
  split at h
  · cases h
  · next cs hcs =>
    split at h
    · next hany =>
      cases h
      exact ⟨cs, hcs, hany, rfl, rfl⟩
    · cases h

/-- Only an action of the task can be updated with. -/
theorem exists_action_of_value {result : Option State} {arena' : Arena}
    (h : (apply (t := t) arena state a).value = (.ok result, arena')) :
    ∃ action, t.action? a = some action := by
  cases hact : t.action? a with
  | none =>
    unfold apply at h
    rw [hact] at h
    cases h
  | some action => exact ⟨action, rfl⟩

/-- Unless an update has a result, it leaves the arena alone. -/
theorem value_apply_unchanged {result : Except ModelError (Option State)}
    {arena' : Arena}
    (h : (apply (t := t) arena state a).value = (result, arena'))
    (hno : ∀ next', result ≠ .ok (some next')) : arena' = arena := by
  cases hact : t.action? a with
  | none =>
    unfold apply at h
    rw [hact] at h
    exact (Prod.mk.inj h).2.symm
  | some action =>
    rw [value_apply hact] at h
    split at h
    · exact (Prod.mk.inj h).2.symm
    · split at h
      · exact absurd (Prod.mk.inj h).1.symm (hno _)
      · exact (Prod.mk.inj h).2.symm

/-- No update takes worlds away. -/
theorem size_worlds_le_apply :
    arena.worlds.size ≤ (apply (t := t) arena state a).value.2.worlds.size := by
  cases hact : t.action? a with
  | none =>
    unfold apply
    rw [hact]
    exact Nat.le_refl _
  | some action =>
    rw [value_apply hact]
    split
    · exact Nat.le_refl _
    · split
      · rw [size_worlds_grow]
        exact Nat.le_add_right _ _
      · exact Nat.le_refl _

theorem mem_pairs {w : WorldId} {e : EventId} :
    (w, e) ∈ pairs state action ↔ w ∈ state.possible ∧ e ∈ action.eventIds := by
  simp [pairs]

theorem mem_firing {w : WorldId} {e : EventId} :
    (w, e) ∈ firing t arena state action a ↔
      w ∈ state.possible ∧ e ∈ action.eventIds ∧ t.Fires arena state w a e := by
  simp [firing, mem_pairs, and_assoc]

end Update

end EpistemicPlanning
