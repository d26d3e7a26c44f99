import EpistemicPlanning.Proofs.Inquiry
import EpistemicPlanning.Update.Product

/-!
# Queries and updates laid open

The queries about events and the product update, written so that the dynamic events they ask for
are in plain view. Carried out through a memo they are the queries and updates of a task
(`Inquiring.consult_fire`, `Inquiring.consult_apply`), and they ask only for dynamic events, with
the valuations that the arena has (`Inquiring.only_apply`).
-/
namespace EpistemicPlanning

/-- A computation that asks for outcomes of dynamic events and may fail to find something. -/
abbrev Inquiring (α : Type) := ExceptT ModelError (Inquiry EventQuery ResolvedEvent) α

namespace Inquiring

section

variable (t : PlanningTask)

/-- The computation with a given result. -/
def ofExcept {α : Type} (x : Except ModelError α) : Inquiring α := ExceptT.mk (pure x)

/-- The precondition and effects of an event at a world. -/
def resolve (arena : Arena) (w : WorldId) (a : ActionId) (e : EventId) : Inquiring ResolvedEvent :=
  match t.event? a e with
  | none => throw (.actionNotFound a)
  | some event =>
    match event.rule with
    | .fixed outcome => pure outcome
    | .perWorld _ => ExceptT.lift (.question ⟨w, a, e, (arena.world w).valuation⟩)

/-- The outcome of an event at a world of a state, if its precondition holds there. -/
def fire (arena : Arena) (state : State) (w : WorldId) (a : ActionId) (e : EventId) :
    Inquiring (Option ResolvedEvent) := do
  let outcome ← resolve t arena w a e
  if ← ofExcept (outcome.precondition.evaluate arena state w) then return some outcome
  else return none

/-- Whether an event fires at a world of a state. -/
def fires (arena : Arena) (state : State) (w : WorldId) (a : ActionId) (e : EventId) :
    Inquiring Bool := do
  return (← fire t arena state w a e).isSome

/-- Whether at every designated world of a state some designated event of an action fires. -/
def isApplicable (arena : Arena) (state : State) (a : ActionId) : Inquiring Bool :=
  match t.action? a with
  | none => throw (.actionNotFound a)
  | some action =>
    state.designated.toList.allM fun w =>
      action.designated.toList.anyM fun e => fires t arena state w a e

/-- Whether some event of some action fires at a world of a state. -/
def hasApplicableEvent (arena : Arena) (state : State) (w : WorldId) : Inquiring Bool :=
  t.eventHandles.anyM fun (a, e) => fires t arena state w a e

/-- The candidates among some pairs of a world and an event: those whose event fires. -/
def candidates (arena : Arena) (state : State) (action : Action) (a : ActionId) :
    List (WorldId × EventId) → Inquiring (List Candidate)
  | [] => return []
  | (w, e) :: rest => do
    let fired ← fire t arena state w a e
    let others ← candidates arena state action a rest
    match fired with
    | none => return others
    | some outcome =>
      let valuation := (arena.world w).valuation.apply outcome.effects
      return ⟨w, e, valuation, state.isDesignated w && action.isDesignated e⟩ :: others

/-- The state after an action, together with the arena that then holds its worlds. -/
def apply (arena : Arena) (state : State) (a : ActionId) :
    Inquiry EventQuery ResolvedEvent (Except ModelError (Option State) × Arena) :=
  match t.action? a with
  | none => return (.error (.actionNotFound a), arena)
  | some action => do
    match ← (candidates t arena state action a (Update.pairs state action)).run with
    | .error e => return (.error e, arena)
    | .ok cs =>
      if cs.any Candidate.designated then
        return (.ok (some (Update.next arena state action cs)),
          Update.grow arena action.owner a cs)
      else return (.ok none, arena)

end

variable {t : PlanningTask} {α β : Type} {arena : Arena} {state : State} {w : WorldId}
variable {action : Action} {a : ActionId} {e : EventId}

/-! ### Carried out through a memo -/

/-- Carries out a query through a memo of dynamic events. -/
def consult (t : PlanningTask) (x : Inquiring α) : Updating t α :=
  ExceptT.mk (x.run.consult t.outcome)

theorem consult_bind (x : Inquiring α) (g : α → Inquiring β) :
    consult t (x >>= g) = consult t x >>= fun a => consult t (g a) := by
  refine ExceptT.ext ?_
  change (ExceptT.run (x >>= g)).consult t.outcome = _
  rw [ExceptT.run_bind, Inquiry.consult_bind, ExceptT.run_bind]
  refine congrArg _ (funext fun result => ?_)
  cases result <;> rfl

theorem consult_anyM (p : α → Inquiring Bool) (l : List α) :
    consult t (l.anyM p) = l.anyM fun a => consult t (p a) := by
  induction l with
  | nil => rfl
  | cons a l ih =>
    simp only [List.anyM, consult_bind]
    refine congrArg _ (funext fun b => ?_)
    cases b with
    | true => rfl
    | false => exact ih

theorem consult_allM (p : α → Inquiring Bool) (l : List α) :
    consult t (l.allM p) = l.allM fun a => consult t (p a) := by
  induction l with
  | nil => rfl
  | cons a l ih =>
    simp only [List.allM, consult_bind]
    refine congrArg _ (funext fun b => ?_)
    cases b with
    | true => exact ih
    | false => rfl

theorem consult_mapM (p : α → Inquiring β) (l : List α) :
    consult t (l.mapM p) = l.mapM fun a => consult t (p a) := by
  induction l with
  | nil => rfl
  | cons a l ih =>
    rw [List.mapM_cons, List.mapM_cons, consult_bind]
    refine congrArg _ (funext fun b => ?_)
    rw [consult_bind, ih]
    rfl

theorem consult_resolve : consult t (resolve t arena w a e) = Updating.resolve arena w a e := by
  unfold resolve Updating.resolve
  cases t.event? a e with
  | none => rfl
  | some event =>
    obtain ⟨_, rule⟩ := event
    cases rule <;> rfl

theorem consult_fire : consult t (fire t arena state w a e) = Updating.fire arena state w a e := by
  unfold fire Updating.fire
  rw [consult_bind, consult_resolve]
  refine congrArg _ (funext fun outcome => ?_)
  rw [consult_bind]
  refine congrArg _ (funext fun b => ?_)
  cases b <;> rfl

theorem consult_fires :
    consult t (fires t arena state w a e) = Updating.fires arena state w a e := by
  unfold fires Updating.fires
  rw [consult_bind, consult_fire]
  rfl

theorem consult_isApplicable :
    consult t (isApplicable t arena state a) = Updating.isApplicable arena state a := by
  unfold isApplicable Updating.isApplicable
  cases t.action? a with
  | none => rfl
  | some action => simp only [consult_allM, consult_anyM, consult_fires]

theorem consult_hasApplicableEvent :
    consult t (hasApplicableEvent t arena state w) =
      Updating.hasApplicableEvent arena state w := by
  unfold hasApplicableEvent Updating.hasApplicableEvent
  simp only [consult_anyM, consult_fires]

theorem consult_candidates (ps : List (WorldId × EventId)) :
    consult t (candidates t arena state action a ps) =
      Update.candidates arena state action a ps := by
  induction ps with
  | nil => rfl
  | cons p rest ih =>
    obtain ⟨w, e⟩ := p
    unfold candidates Update.candidates
    rw [consult_bind, consult_fire]
    refine congrArg _ (funext fun fired => ?_)
    rw [consult_bind, ih]
    refine congrArg _ (funext fun others => ?_)
    cases fired <;> rfl

theorem consult_apply :
    (apply t arena state a).consult t.outcome = Update.apply arena state a := by
  unfold apply Update.apply
  cases t.action? a with
  | none => rfl
  | some action =>
    have hcandidates : (candidates t arena state action a
        (Update.pairs state action)).run.consult t.outcome =
          (Update.candidates (t := t) arena state action a (Update.pairs state action)).run :=
      congrArg ExceptT.run (consult_candidates _)
    dsimp only
    rw [Inquiry.consult_bind, hcandidates]
    refine congrArg _ (funext fun result => ?_)
    cases result with
    | error e => rfl
    | ok cs =>
      dsimp only
      split <;> rfl

/-! ### What is asked -/

end Inquiring

/-- A question is about a dynamic event, and has the valuation of its world in an arena. -/
structure EventQuery.Of (t : PlanningTask) (arena : Arena) (q : EventQuery) : Prop where
  valuation : q.valuation = (arena.world q.world).valuation
  dynamic : ∃ event, t.event? q.action q.event = some event ∧ event.rule.isDynamic = true

namespace Inquiring

variable {t : PlanningTask} {α β : Type} {arena : Arena} {state : State} {w : WorldId}
variable {action : Action} {a : ActionId} {e : EventId} {P : EventQuery → Prop}

theorem only_bind {x : Inquiring α} {g : α → Inquiring β} (hx : x.run.Only P)
    (hg : ∀ a, (g a).run.Only P) : (x >>= g).run.Only P := by
  rw [ExceptT.run_bind]
  refine hx.bind fun result => ?_
  cases result with
  | error e => exact trivial
  | ok a => exact hg a

theorem only_anyM {p : α → Inquiring Bool} (hp : ∀ a, (p a).run.Only P) (l : List α) :
    (l.anyM p).run.Only P := by
  induction l with
  | nil => exact trivial
  | cons a l ih =>
    refine only_bind (hp a) fun b => ?_
    cases b with
    | true => exact trivial
    | false => exact ih

theorem only_allM {p : α → Inquiring Bool} (hp : ∀ a, (p a).run.Only P) (l : List α) :
    (l.allM p).run.Only P := by
  induction l with
  | nil => exact trivial
  | cons a l ih =>
    refine only_bind (hp a) fun b => ?_
    cases b with
    | true => exact ih
    | false => exact trivial

theorem only_resolve : (resolve t arena w a e).run.Only (EventQuery.Of t arena) := by
  unfold resolve
  split
  · exact trivial
  · next event hevent =>
    split
    · exact trivial
    · next rule hrule =>
      refine ⟨⟨rfl, event, hevent, ?_⟩, fun _ => trivial⟩
      rw [hrule]
      rfl

theorem only_fire : (fire t arena state w a e).run.Only (EventQuery.Of t arena) := by
  refine only_bind only_resolve fun outcome => ?_
  refine only_bind trivial fun b => ?_
  cases b <;> exact trivial

theorem only_fires : (fires t arena state w a e).run.Only (EventQuery.Of t arena) :=
  only_bind only_fire fun _ => trivial

theorem only_isApplicable : (isApplicable t arena state a).run.Only (EventQuery.Of t arena) := by
  unfold isApplicable
  split
  · exact trivial
  · exact only_allM (fun w => only_anyM (fun e => only_fires) _) _

theorem only_hasApplicableEvent :
    (hasApplicableEvent t arena state w).run.Only (EventQuery.Of t arena) :=
  only_anyM (fun _ => only_fires) _

theorem only_candidates (ps : List (WorldId × EventId)) :
    (candidates t arena state action a ps).run.Only (EventQuery.Of t arena) := by
  induction ps with
  | nil => exact trivial
  | cons p rest ih =>
    refine only_bind only_fire fun fired => only_bind ih fun others => ?_
    cases fired <;> exact trivial

theorem only_apply : (apply t arena state a).Only (EventQuery.Of t arena) := by
  unfold apply
  split
  · exact trivial
  · refine (only_candidates _).bind fun result => ?_
    cases result with
    | error e => exact trivial
    | ok cs =>
      dsimp only
      split <;> exact trivial

end Inquiring

end EpistemicPlanning
