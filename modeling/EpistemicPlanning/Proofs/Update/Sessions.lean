import EpistemicPlanning.Proofs.Lever
import EpistemicPlanning.Proofs.Update.Candidates
import EpistemicPlanning.Proofs.Update.Inquiring

/-!
# Sessions with an updater

A session is a sequence of calls over one arena, which starts as that of the task and grows by
updates only. Working out a dynamic event once for a world and keeping the outcome, under the
handles of the world, the action and the event, is the same as working it out anew each time
(`Call.memo_is_transparent`).
-/
namespace EpistemicPlanning

/-- What an updater may be asked. -/
inductive Call where
  | resolve (w : WorldId) (a : ActionId) (e : EventId)
  | isApplicable (state : State) (a : ActionId)
  | hasApplicableEvent (state : State) (w : WorldId)
  | apply (state : State) (a : ActionId)

/-- What comes of a call. -/
inductive Reply where
  | outcome (result : Except ModelError ResolvedEvent)
  | truth (result : Except ModelError Bool)
  | state (result : Except ModelError (Option State))

/-- The handles that the outcome of a dynamic event is kept under. -/
structure EventPlace where
  world : WorldId
  action : ActionId
  event : EventId
  deriving DecidableEq

/-- Where a question is about. -/
def EventQuery.place (q : EventQuery) : EventPlace := ⟨q.world, q.action, q.event⟩

namespace Call

variable (t : PlanningTask)

/-! ### Three updaters -/

/-- What comes of a call, and the arena after it. -/
def perform (arena : Arena) : Call → Consult t.outcome (Reply × Arena)
  | resolve w a e => do
    return (.outcome (← (Updating.resolve (t := t) arena w a e).run), arena)
  | isApplicable state a => do
    return (.truth (← (Updating.isApplicable (t := t) arena state a).run), arena)
  | hasApplicableEvent state w => do
    return (.truth (← (Updating.hasApplicableEvent (t := t) arena state w).run), arena)
  | apply state a => do
    let updated ← Update.apply (t := t) arena state a
    return (.state updated.1, updated.2)

/-- What comes of the calls of a session, and the arena after them. -/
def performAll : List Call → Arena → Consult t.outcome (List Reply × Arena)
  | [], arena => return ([], arena)
  | call :: rest, arena => do
    let first ← call.perform t arena
    let others ← performAll rest first.2
    return (first.1 :: others.1, others.2)

/-- A call laid open. -/
def inquiry (arena : Arena) : Call → Inquiry EventQuery ResolvedEvent (Reply × Arena)
  | resolve w a e => do return (.outcome (← (Inquiring.resolve t arena w a e).run), arena)
  | isApplicable state a => do
    return (.truth (← (Inquiring.isApplicable t arena state a).run), arena)
  | hasApplicableEvent state w => do
    return (.truth (← (Inquiring.hasApplicableEvent t arena state w).run), arena)
  | apply state a => do
    let updated ← Inquiring.apply t arena state a
    return (.state updated.1, updated.2)

/-- A session laid open. -/
def inquiryAll : List Call → Arena → Inquiry EventQuery ResolvedEvent (List Reply × Arena)
  | [], arena => return ([], arena)
  | call :: rest, arena => do
    let first ← call.inquiry t arena
    let others ← inquiryAll rest first.2
    return (first.1 :: others.1, others.2)

/-- A session that starts with nothing remembered, and what is remembered in the end. -/
def memoized (calls : List Call) : (List Reply × Arena) × Memo t.outcome :=
  (performAll t calls t.arena).run ∅

/-- A session in which a dynamic event is worked out anew each time its outcome is asked for. -/
def afresh (calls : List Call) : List Reply × Arena :=
  (inquiryAll t calls t.arena).answer t.outcome

/-- A session in which the outcomes of dynamic events are kept under handles. -/
def stored (calls : List Call) :
    (List Reply × Arena) × Inquiry.Store EventPlace ResolvedEvent :=
  (inquiryAll t calls t.arena).lookUp EventQuery.place t.outcome ⟨[], []⟩

/-- Dynamic events are asked for at worlds that are in the arena by then; no other world has a
valuation to work an outcome out from. -/
def Within : List Call → Arena → Prop
  | [], _ => True
  | call :: rest, arena =>
    (∀ q ∈ (call.inquiry t arena).asked t.outcome, arena.contains q.world = true) ∧
      Within rest ((call.inquiry t arena).answer t.outcome).2

variable {t} {arena : Arena} {calls : List Call} {call : Call}

theorem consult_inquiry : (call.inquiry t arena).consult t.outcome = call.perform t arena := by
  have hrun : ∀ {α β : Type} {x : Inquiring α} {y : Updating t α} (g : Except ModelError α → β),
      Inquiring.consult t x = y →
        (x.run >>= fun r => (pure (g r) : Inquiry EventQuery ResolvedEvent β)).consult t.outcome =
          y.run >>= fun r => pure (g r) := by
    rintro α β x _ g rfl
    rw [Inquiry.consult_bind]
    rfl
  cases call with
  | resolve w a e => exact hrun _ Inquiring.consult_resolve
  | isApplicable state a => exact hrun _ Inquiring.consult_isApplicable
  | hasApplicableEvent state w => exact hrun _ Inquiring.consult_hasApplicableEvent
  | apply state a =>
    unfold inquiry perform
    rw [Inquiry.consult_bind, Inquiring.consult_apply]
    rfl

theorem consult_inquiryAll :
    (inquiryAll t calls arena).consult t.outcome = performAll t calls arena := by
  induction calls generalizing arena with
  | nil => rfl
  | cons call rest ih =>
    unfold inquiryAll performAll
    rw [Inquiry.consult_bind, consult_inquiry]
    refine congrArg _ (funext fun first => ?_)
    rw [Inquiry.consult_bind, ih]
    rfl

/-! ### The arena of a session -/

end Call

/-- An arena has all worlds of another, with their valuations. -/
structure Arena.Keeps (later earlier : Arena) : Prop where
  size : earlier.worlds.size ≤ later.worlds.size
  valuation : ∀ w, w.index < earlier.worlds.size →
    (later.world w).valuation = (earlier.world w).valuation

theorem Arena.Keeps.trans {a b c : Arena} (h : c.Keeps b) (h' : b.Keeps a) : c.Keeps a where
  size := Nat.le_trans h'.size h.size
  valuation w hw := (h.valuation w (Nat.lt_of_lt_of_le hw h'.size)).trans (h'.valuation w hw)

theorem Arena.Keeps.refl (a : Arena) : a.Keeps a := ⟨Nat.le_refl _, fun _ _ => rfl⟩

theorem Arena.keeps_addChild (arena : Arena) (parent : WorldId) (event : EventId) (a : ActionId)
    (owner : Agent) (valuation : Valuation) :
    (arena.addChild parent event a owner valuation).Keeps arena where
  size := by
    rw [size_worlds_addChild]
    exact Nat.le_succ _
  valuation w hw := by
    by_cases heq : w = parent
    · subst heq
      rw [world_addChild_parent hw]
    · rw [world_addChild_other hw heq]

theorem Update.keeps_grow (arena : Arena) (owner : Agent) (a : ActionId) (cs : List Candidate) :
    (grow arena owner a cs).Keeps arena := by
  induction cs generalizing arena with
  | nil => exact .refl arena
  | cons c cs ih => exact (ih _).trans (arena.keeps_addChild _ _ _ _ _)

theorem Inquiring.keeps_apply {t : PlanningTask} (arena : Arena) (state : State) (a : ActionId) :
    ((apply t arena state a).answer t.outcome).2.Keeps arena := by
  rw [← Inquiry.value_consult, consult_apply]
  cases hact : t.action? a with
  | none =>
    unfold Update.apply
    rw [hact]
    exact .refl arena
  | some action =>
    rw [Update.value_apply hact]
    split
    · exact .refl arena
    · split
      · exact Update.keeps_grow arena action.owner a _
      · exact .refl arena

namespace Call

variable {t : PlanningTask} {arena : Arena} {calls : List Call} {call : Call}

theorem keeps_inquiry : ((call.inquiry t arena).answer t.outcome).2.Keeps arena := by
  unfold inquiry
  cases call with
  | apply state a =>
    rw [Inquiry.answer_bind]
    exact Inquiring.keeps_apply arena state a
  | _ =>
    rw [Inquiry.answer_bind]
    exact .refl arena

theorem keeps_inquiryAll : ((inquiryAll t calls arena).answer t.outcome).2.Keeps arena := by
  induction calls generalizing arena with
  | nil => exact .refl arena
  | cons call rest ih =>
    unfold inquiryAll
    rw [Inquiry.answer_bind, Inquiry.answer_bind]
    exact ih.trans keeps_inquiry

theorem only_inquiry : (call.inquiry t arena).Only (EventQuery.Of t arena) := by
  cases call with
  | resolve w a e => exact Inquiring.only_resolve.bind fun _ => trivial
  | isApplicable state a => exact Inquiring.only_isApplicable.bind fun _ => trivial
  | hasApplicableEvent state w => exact Inquiring.only_hasApplicableEvent.bind fun _ => trivial
  | apply state a => exact Inquiring.only_apply.bind fun _ => trivial

/-- What is asked in a session has the valuations of the arena that it ends with. -/
theorem of_asked (hin : Within t calls arena) :
    ∀ q ∈ (inquiryAll t calls arena).asked t.outcome,
      EventQuery.Of t ((inquiryAll t calls arena).answer t.outcome).2 q := by
  induction calls generalizing arena with
  | nil =>
    intro q hq
    cases hq
  | cons call rest ih =>
    obtain ⟨hfirst, hrest⟩ := hin
    intro q hq
    unfold inquiryAll at hq ⊢
    rw [Inquiry.asked_bind, List.mem_append, Inquiry.asked_bind] at hq
    rw [Inquiry.answer_bind, Inquiry.answer_bind]
    rcases hq with hq | hq
    · have hof := only_inquiry.of_asked q hq
      have hworld := Arena.contains_iff.1 (hfirst q hq)
      have hkeeps : ((inquiryAll t rest ((call.inquiry t arena).answer t.outcome).2).answer
          t.outcome).2.Keeps arena := keeps_inquiryAll.trans keeps_inquiry
      exact ⟨hof.valuation.trans (hkeeps.valuation _ hworld).symm, hof.dynamic⟩
    · rcases List.mem_append.1 hq with hq | hq
      · exact ih hrest q hq
      · cases hq

end Call

/-- Two questions about one place are the same when they have the valuations of one arena. -/
theorem EventQuery.Of.eq_of_place {t : PlanningTask} {arena : Arena} {q q' : EventQuery}
    (h : q.Of t arena) (h' : q'.Of t arena) (hplace : q.place = q'.place) : q = q' := by
  have hworld : q.world = q'.world := congrArg EventPlace.world hplace
  have hvaluation : q.valuation = q'.valuation := by rw [h.valuation, h'.valuation, hworld]
  cases q
  cases q'
  cases hplace
  cases hvaluation
  rfl

/-! ### Transparency -/

/-- Whether outcomes are kept makes no difference to a session. -/
structure Call.Transparent (t : PlanningTask) (calls : List Call) : Prop where
  /-- Replies and arena are those of working out each event anew, -/
  memo_result : (memoized t calls).1 = afresh t calls
  /-- also when outcomes are kept under handles only. -/
  store_result : (stored t calls).1 = afresh t calls
  /-- The same outcomes are kept under handles as in the memo, -/
  kept : (stored t calls).2.entries =
    (memoized t calls).2.entries.map fun e => (e.1.place, e.2)
  /-- namely what has been worked out, -/
  runs : (stored t calls).2.runs = (stored t calls).2.entries.map Prod.fst
  /-- and no event has been worked out twice at a world. -/
  once : (stored t calls).2.runs.Nodup
  /-- The memo counts how often an event has been worked out. -/
  counted : (memoized t calls).2.size = (stored t calls).2.runs.length
  /-- Outcomes are kept of dynamic events only. -/
  dynamic : ∀ e ∈ (stored t calls).2.entries,
    ∃ event, t.event? e.1.action e.1.event = some event ∧ event.rule.isDynamic = true

/-- Keeping the outcomes of dynamic events makes no difference to any session. -/
theorem Call.memo_is_transparent {t : PlanningTask} {calls : List Call}
    (hin : Within t calls t.arena) : Transparent t calls := by
  have hrun : memoized t calls = ((inquiryAll t calls t.arena).consult t.outcome).run ∅ := by
    rw [consult_inquiryAll]
    rfl
  have hkey : ∀ q q', EventQuery.Of t (afresh t calls).2 q → EventQuery.Of t (afresh t calls).2 q' →
      q.place = q'.place → q = q' := fun _ _ h h' => h.eq_of_place h'
  obtain ⟨hresult, hmirrors⟩ := Inquiry.lookUp_agrees hkey (inquiryAll t calls t.arena)
    (of_asked hin) Inquiry.Store.mirrors_empty
  rw [← hrun] at hmirrors
  refine ⟨?_, hresult, hmirrors.entries, hmirrors.runs, hmirrors.nodup_runs hkey, ?_,
    fun e he => ?_⟩
  · rw [hrun]
    exact Inquiry.value_consult _
  · rw [stored, hmirrors.runs, hmirrors.entries, List.length_map, List.length_map]
    rfl
  · rw [stored, hmirrors.entries] at he
    obtain ⟨x, hx, rfl⟩ := List.mem_map.1 he
    exact (hmirrors.kind x hx).dynamic

namespace Lever

/-- An action with a dynamic event: wherever the lever is, it goes one position to the left. -/
def nudgeSteps : List ActionStep :=
  [.event ⟨"nudge", .perWorld fun v _ =>
      if v.holds (position 2) then ⟨.top, .ofList [(position 2, false), (position 1, true)]⟩
      else ⟨.top, .ofList [(position 1, false), (position 0, true)]⟩⟩,
    .designateAll]

def nudge : Action := Fallible.get (Action.ofSteps "nudge" left nudgeSteps) (by decide)

def nudgeTask : PlanningTask := { task with actions := [nudge] }

/-- The lever is nudged twice in the state that it starts in; in between and afterwards the outcome
is asked for at one of the old worlds and at one of the new ones. -/
def nudges : List Call :=
  [.resolve (world 1) ⟨0⟩ ⟨0⟩, .isApplicable initial ⟨0⟩, .apply initial ⟨0⟩,
    .resolve (world 1) ⟨0⟩ ⟨0⟩, .apply initial ⟨0⟩, .resolve (world 3) ⟨0⟩ ⟨0⟩]

theorem nudges_within : Call.Within nudgeTask nudges nudgeTask.arena := by
  refine ⟨?_, ?_, ?_, ?_, ?_, ?_, trivial⟩ <;> decide +kernel

/-- Each of the three worlds of the state, and one that comes of it, is worked out once. -/
theorem nudges_transparent : Call.Transparent nudgeTask nudges ∧
    (Call.stored nudgeTask nudges).2.runs.map EventPlace.world =
      [world 3, world 2, world 0, world 1] :=
  ⟨Call.memo_is_transparent nudges_within, by decide +kernel⟩

end Lever

end EpistemicPlanning
