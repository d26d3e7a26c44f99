import EpistemicPlanning.Proofs.Fallible
import EpistemicPlanning.Proofs.Formula.Locality
import EpistemicPlanning.Update.Firing

/-!
# When events fire

The value of a query about events, whatever the memo holds, and what the queries answer in terms of
preconditions: an event fires at a world when its precondition there is true (`Fires`).
-/
namespace EpistemicPlanning

variable {t : PlanningTask} {α β : Type}

namespace Updating

/-- The value of a query about events. -/
def value (x : Updating t α) : Except ModelError α := x.run.value

@[simp] theorem value_pure (a : α) : (pure a : Updating t α).value = .ok a := rfl

@[simp] theorem value_ofExcept (x : Except ModelError α) : (ofExcept (t := t) x).value = x := rfl

@[simp] theorem value_bind (x : Updating t α) (f : α → Updating t β) :
    (x >>= f).value = x.value >>= fun a => (f a).value := by
  unfold value
  rw [ExceptT.run_bind, Consult.value_bind]
  cases x.run.value with
  | error e => rfl
  | ok a => rfl

@[simp] theorem value_mapM (f : α → Updating t β) (l : List α) :
    (l.mapM f).value = l.mapM fun a => (f a).value := by
  induction l with
  | nil => rfl
  | cons a l ih => simp only [List.mapM_cons, value_bind, value_pure, ih]; rfl

@[simp] theorem value_anyM (f : α → Updating t Bool) (l : List α) :
    (l.anyM f).value = l.anyM fun a => (f a).value := by
  induction l with
  | nil => rfl
  | cons a l ih =>
    simp only [List.anyM, value_bind]
    congr 1
    funext b
    cases b with
    | true => rfl
    | false => exact ih

@[simp] theorem value_allM (f : α → Updating t Bool) (l : List α) :
    (l.allM f).value = l.allM fun a => (f a).value := by
  induction l with
  | nil => rfl
  | cons a l ih =>
    simp only [List.allM, value_bind]
    congr 1
    funext b
    cases b with
    | true => exact ih
    | false => rfl

end Updating

namespace PlanningTask

/-- What an event of an action needs and does at a world of an arena. -/
def outcomeAt? (t : PlanningTask) (arena : Arena) (w : WorldId) (a : ActionId) (e : EventId) :
    Option ResolvedEvent :=
  (t.event? a e).map fun event => event.rule.resolve (arena.world w).valuation t.view

/-- An event of an action has a true precondition at a world of a state. -/
def Fires (t : PlanningTask) (arena : Arena) (state : State) (w : WorldId) (a : ActionId)
    (e : EventId) : Prop :=
  ∃ outcome, t.outcomeAt? arena w a e = some outcome ∧
    outcome.precondition.evaluate arena state w = .ok true

/-- Some event of some action has a true precondition at a world of a state. -/
def SomeFires (t : PlanningTask) (arena : Arena) (state : State) (w : WorldId) : Prop :=
  ∃ a e, t.Fires arena state w a e

end PlanningTask

namespace Updating

variable {arena : Arena} {state : State} {w : WorldId} {a : ActionId} {e : EventId}

theorem value_resolve :
    (resolve (t := t) arena w a e).value =
      match t.outcomeAt? arena w a e with
      | some outcome => .ok outcome
      | none => .error (.actionNotFound a) := by
  unfold resolve PlanningTask.outcomeAt?
  cases hev : t.event? a e with
  | none => rfl
  | some event =>
    cases hrule : event.rule with
    | fixed outcome => simp [hrule, EventRule.resolve]
    | perWorld f =>
      have hask : (Consult.ask ⟨w, a, e, (arena.world w).valuation⟩ :
          Consult t.outcome ResolvedEvent).value =
            event.rule.resolve (arena.world w).valuation t.view := by
        rw [Consult.value_ask, PlanningTask.outcome, hev]
      simp only [Option.map_some, hrule] at hask ⊢
      rw [← hask]
      rfl

theorem value_fire :
    (fire (t := t) arena state w a e).value =
      match t.outcomeAt? arena w a e with
      | some outcome =>
        (outcome.precondition.evaluate arena state w).map fun b =>
          if b then some outcome else none
      | none => .error (.actionNotFound a) := by
  unfold fire
  rw [value_bind, value_resolve]
  cases t.outcomeAt? arena w a e with
  | none => rfl
  | some outcome =>
    change (_ >>= _ : Updating t _).value = _
    rw [value_bind, value_ofExcept]
    dsimp only
    cases outcome.precondition.evaluate arena state w with
    | error e => rfl
    | ok b => cases b <;> rfl

theorem value_fire_eq_some {outcome : ResolvedEvent} :
    (fire (t := t) arena state w a e).value = .ok (some outcome) ↔
      t.outcomeAt? arena w a e = some outcome ∧
        outcome.precondition.evaluate arena state w = .ok true := by
  rw [value_fire]
  cases t.outcomeAt? arena w a e with
  | none => simp
  | some o =>
    simp only [Option.some.injEq]
    constructor
    · intro h
      obtain ⟨b, hb, h⟩ := Fallible.map_eq_ok h
      cases b with
      | true =>
        simp only [if_true, Option.some.injEq] at h
        subst h
        exact ⟨rfl, hb⟩
      | false => simp at h
    · rintro ⟨rfl, h⟩
      rw [h]
      rfl

theorem value_fire_eq_none :
    (fire (t := t) arena state w a e).value = .ok none ↔
      ∃ outcome, t.outcomeAt? arena w a e = some outcome ∧
        outcome.precondition.evaluate arena state w = .ok false := by
  rw [value_fire]
  cases t.outcomeAt? arena w a e with
  | none => simp
  | some o =>
    simp only [Option.some.injEq, exists_eq_left']
    constructor
    · intro h
      obtain ⟨b, hb, h⟩ := Fallible.map_eq_ok h
      cases b with
      | true => simp at h
      | false => exact hb
    · intro h
      rw [h]
      rfl

theorem value_fires_eq_true :
    (fires (t := t) arena state w a e).value = .ok true ↔ t.Fires arena state w a e := by
  unfold fires PlanningTask.Fires
  rw [value_bind]
  constructor
  · intro h
    obtain ⟨o, ho, h⟩ := Fallible.bind_eq_ok h
    cases o with
    | none => cases h
    | some o => exact ⟨o, value_fire_eq_some.1 ho⟩
  · rintro ⟨o, ho⟩
    rw [value_fire_eq_some.2 ho]
    rfl

theorem not_fires_of_value_eq_false
    (h : (fires (t := t) arena state w a e).value = .ok false) : ¬t.Fires arena state w a e := by
  intro hf
  rw [value_fires_eq_true.2 hf] at h
  cases h

end Updating

namespace PlanningTask

theorem numbered_getElem? (t : PlanningTask) (i : Nat) :
    t.numbered[i]? = (t.action? ⟨i⟩).map fun act => (act, ⟨i⟩) := by
  unfold numbered actionIds action?
  by_cases h : i < min t.actions.length UInt32.size
  · obtain ⟨hlt, hword⟩ := Nat.lt_min.1 h
    have hid : (List.range (min t.actions.length UInt32.size))[i]? = some i := List.getElem?_range h
    simp only [if_pos hword, List.getElem?_eq_getElem hlt, Option.map_some]
    exact List.getElem?_zip_eq_some.2 ⟨List.getElem?_eq_getElem hlt, by simp [hid]⟩
  · have hnone : (if i < UInt32.size then t.actions[i]? else none) = none := by
      split
      · exact List.getElem?_eq_none (by omega)
      · rfl
    simp only [hnone, Option.map_none]
    exact List.getElem?_eq_none (by simp only [List.length_zip, List.length_map, List.length_range]
                                    omega)

theorem mem_numbered {act : Action} {a : ActionId} :
    (act, a) ∈ t.numbered ↔ t.action? a = some act := by
  rw [List.mem_iff_getElem?]
  constructor
  · rintro ⟨i, hi⟩
    rw [numbered_getElem?] at hi
    obtain ⟨act', hact, h⟩ := Option.map_eq_some_iff.1 hi
    cases h
    exact hact
  · intro h
    refine ⟨a.index, ?_⟩
    rw [numbered_getElem?]
    exact Option.map_eq_some_iff.2 ⟨act, h, rfl⟩

theorem mem_eventIds {act : Action} {e : EventId} :
    e ∈ act.eventIds ↔ e.index < act.events.length := by
  unfold Action.eventIds
  constructor
  · intro h
    obtain ⟨i, hi, rfl⟩ := List.mem_map.1 h
    exact List.mem_range.1 hi
  · intro h
    exact List.mem_map.2 ⟨e.index, List.mem_range.2 h, rfl⟩

theorem mem_eventHandles {a : ActionId} {e : EventId} :
    (a, e) ∈ t.eventHandles ↔ ∃ event, t.event? a e = some event := by
  unfold eventHandles
  simp only [List.mem_flatMap, List.mem_map, Prod.mk.injEq, Prod.exists]
  constructor
  · rintro ⟨act, b, hact, f, hf, rfl, rfl⟩
    rw [mem_numbered] at hact
    rw [event?, hact]
    have hlt := mem_eventIds.1 hf
    exact ⟨act.events[f.index], List.getElem?_eq_getElem hlt⟩
  · rintro ⟨event, h⟩
    obtain ⟨act, hact, hev⟩ := Option.bind_eq_some_iff.1 h
    exact ⟨act, a, mem_numbered.2 hact, e,
      mem_eventIds.2 (List.getElem?_eq_some_iff.1 hev).1, rfl, rfl⟩

theorem Fires.mem_eventHandles {arena : Arena} {state : State} {w : WorldId} {a : ActionId}
    {e : EventId} (h : t.Fires arena state w a e) : (a, e) ∈ t.eventHandles := by
  obtain ⟨o, ho, _⟩ := h
  obtain ⟨event, hev, _⟩ := Option.map_eq_some_iff.1 ho
  exact PlanningTask.mem_eventHandles.2 ⟨event, hev⟩

end PlanningTask

namespace PlanningTask

variable {arena arena' : Arena} {state state' : State} {w : WorldId}

/-- Whether an event fires depends on the links and on the valuations of the worlds of the state. -/
theorem fires_congr (h : state.WellFormed) (hlinks : state.relation.links = state'.relation.links)
    (hval : ∀ w ∈ state.possible, (arena.world w).valuation = (arena'.world w).valuation)
    (hw : w ∈ state.possible) {a : ActionId} {e : EventId} :
    t.Fires arena state w a e ↔ t.Fires arena' state' w a e := by
  unfold Fires outcomeAt?
  rw [hval w hw]
  constructor
  · rintro ⟨o, ho, heval⟩
    exact ⟨o, ho, by rwa [← h.evaluate_congr hlinks hval _ hw]⟩
  · rintro ⟨o, ho, heval⟩
    exact ⟨o, ho, by rwa [h.evaluate_congr hlinks hval _ hw]⟩

theorem someFires_congr (h : state.WellFormed)
    (hlinks : state.relation.links = state'.relation.links)
    (hval : ∀ w ∈ state.possible, (arena.world w).valuation = (arena'.world w).valuation)
    (hw : w ∈ state.possible) : t.SomeFires arena state w ↔ t.SomeFires arena' state' w := by
  unfold SomeFires
  simp only [fires_congr h hlinks hval hw]

end PlanningTask

/-- An answer about a world is right: it says whether some event fires there. -/
theorem Updating.value_hasApplicableEvent {arena : Arena} {state : State} {w : WorldId} {b : Bool}
    (h : (hasApplicableEvent (t := t) arena state w).value = .ok b) :
    b = true ↔ t.SomeFires arena state w := by
  unfold hasApplicableEvent at h
  rw [value_anyM] at h
  cases b with
  | true =>
    obtain ⟨⟨a, e⟩, _, hf⟩ := Fallible.anyM_eq_ok_true h
    exact ⟨fun _ => ⟨a, e, value_fires_eq_true.1 hf⟩, fun _ => rfl⟩
  | false =>
    have hall := Fallible.anyM_eq_ok_false h
    constructor
    · intro h
      cases h
    · rintro ⟨a, e, hf⟩
      exact absurd hf (not_fires_of_value_eq_false (hall (a, e) hf.mem_eventHandles))

end EpistemicPlanning
