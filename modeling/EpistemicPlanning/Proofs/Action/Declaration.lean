import EpistemicPlanning.Proofs.Task.Assembly

/-!
# What the steps of an action declare

The steps of an action come in any order: an event may be designated, or paired with another one,
before it is added. What they declare is read off the whole sequence, without the drafts in between.
The action is built exactly when that makes up an action (`ActionStep.Acceptable`), and it is then
the one that is declared (`ActionStep.Declare`); otherwise the first defect is reported
(`ActionStep.Refused`). With handles that are words the same is built of up to `UInt32.size` events
(`Action.ofStepsInWords_eq`), and nothing of more (`Action.ofStepsInWords_eq_error`).
-/
namespace EpistemicPlanning

open Relation

variable {steps : List ActionStep} {step : ActionStep} {owner a : Agent} {name : String}
variable {e f : EventId}

/-! ### What is declared -/

namespace ActionStep

/-- The event that a step adds. -/
def added : ActionStep → Option Event
  | .event e => some e
  | _ => none

/-- The pair of events that a step declares, and its agent. -/
def paired : ActionStep → Option (Agent × EventId × EventId)
  | .indistinguishable a e f => some (a, e, f)
  | _ => none

/-- The events that are added, in order. -/
def eventsOf (steps : List ActionStep) : List Event := steps.filterMap added

/-- The handle is that of an event added at one of the steps. -/
def Adds (steps : List ActionStep) (e : EventId) : Prop := e.index < (eventsOf steps).length

/-- An event is designated by its handle, or together with all events added so far. -/
def Designates (steps : List ActionStep) (e : EventId) : Prop :=
  .designate e ∈ steps ∨
    ∃ before after, steps = before ++ .designateAll :: after ∧ Adds before e

/-- An agent of the relation is the owner, an observer or the agent of a declared pair. -/
def Involves (owner : Agent) (steps : List ActionStep) (a : Agent) : Prop :=
  a = owner ∨ .observer a ∈ steps ∨ ∃ e f, .indistinguishable a e f ∈ steps

/-- The pair is declared of the agent, one way round or the other. -/
def Pairs (steps : List ActionStep) (a : Agent) (e f : EventId) : Prop :=
  .indistinguishable a e f ∈ steps ∨ .indistinguishable a f e ∈ steps

/-- What is declared makes up an action: there are events, some are designated, and only events are
designated and paired. -/
structure Acceptable (steps : List ActionStep) : Prop where
  events : eventsOf steps ≠ []
  designates : ∃ e, Designates steps e
  designated : ∀ e, Designates steps e → Adds steps e
  paired : ∀ a e f, .indistinguishable a e f ∈ steps → Adds steps e ∧ Adds steps f

/-- The defect that is reported: of declared pairs the first that is not of events, and of
designated handles the least that is not of an event. -/
inductive Refused (steps : List ActionStep) : ActionDefect → Prop
  | noEvents (h : eventsOf steps = []) : Refused steps .noEvents
  | noDesignated (hevents : eventsOf steps ≠ []) (h : ¬∃ e, Designates steps e) :
      Refused steps .noDesignated
  | unknownEvent {before after : List ActionStep} {a : Agent} {e f : EventId}
      (hevents : eventsOf steps ≠ []) (hdes : ∃ e, Designates steps e)
      (heq : steps = before ++ .indistinguishable a e f :: after)
      (h : ¬(Adds steps e ∧ Adds steps f))
      (hfirst : ∀ b x y, .indistinguishable b x y ∈ before → Adds steps x ∧ Adds steps y) :
      Refused steps (.unknownEvent e f)
  | strayDesignated {e : EventId} (hevents : eventsOf steps ≠ [])
      (hpaired : ∀ a x y, .indistinguishable a x y ∈ steps → Adds steps x ∧ Adds steps y)
      (hdes : Designates steps e) (h : ¬Adds steps e)
      (hleast : ∀ x, Designates steps x → x.index < e.index → Adds steps x) :
      Refused steps (.shape (.strayDesignated e))

/-- The action is the one that the steps declare. Its relation has no agents, nodes or cuts
besides. -/
structure Declare (name : String) (owner : Agent) (steps : List ActionStep) (action : Action) :
    Prop where
  called : action.name = name
  ownedBy : action.owner = owner
  events : action.events = eventsOf steps
  /-- The handle of an event is the number of events added before it. -/
  event : ∀ before e after, steps = before ++ .event e :: after →
    action.event? ⟨(eventsOf before).length⟩ = some e
  possible : action.model.possible = (List.range (eventsOf steps).length).map Handle.mk
  designated : ∀ e, action.isDesignated e = true ↔ Designates steps e
  agents : ∀ a, action.relation.hasAgent a = true ↔ Involves owner steps a
  nodes : ∀ e, e ∈ action.relation.nodes ↔ Adds steps e
  cuts : action.relation.cuts = ∅
  /-- An agent cannot tell two events apart when a chain of declared pairs joins them. -/
  related : ∀ a, Involves owner steps a → ∀ e f, ∃ b, action.relation.isRelated a e f = .ok b ∧
    (b = true ↔ ReflTransGen (Pairs steps a) e f)

theorem Acceptable.not_refused (h : Acceptable steps) (defect : ActionDefect) :
    ¬Refused steps defect := by
  intro hrefused
  cases hrefused with
  | noEvents hno => exact h.events hno
  | noDesignated _ hno => exact hno h.designates
  | unknownEvent _ _ heq hno _ =>
    exact hno (h.paired _ _ _ (heq ▸ List.mem_append_right _ List.mem_cons_self))
  | strayDesignated _ _ hdes hno _ => exact hno (h.designated _ hdes)

/-! ### One more step -/

theorem eventsOf_snoc : eventsOf (steps ++ [step]) = eventsOf steps ++ step.added.toList := by
  rw [eventsOf, List.filterMap_append]
  cases step <;> rfl

theorem getElem?_eventsOf_of_split {before after : List ActionStep} {x : Event}
    (h : steps = before ++ .event x :: after) :
    (eventsOf steps)[(eventsOf before).length]? = some x := by
  rw [h, eventsOf, List.filterMap_append, ← eventsOf]
  simp [added]

theorem designates_snoc : Designates (steps ++ [step]) e ↔
    Designates steps e ∨ step = .designate e ∨ step = .designateAll ∧ Adds steps e := by
  constructor
  · rintro (h | ⟨before, after, heq, he⟩)
    · rcases List.mem_append.1 h with h | h
      · exact Or.inl (Or.inl h)
      · exact Or.inr (Or.inl (List.mem_singleton.1 h).symm)
    · -- the step that designates all events so far is the last one, or comes before the last one
      rcases List.eq_nil_or_concat after with rfl | ⟨after, last, rfl⟩
      · obtain ⟨rfl, hlast⟩ := List.append_inj' heq rfl
        exact Or.inr (Or.inr ⟨List.head_eq_of_cons_eq hlast, he⟩)
      · rw [List.concat_eq_append, ← List.cons_append, ← List.append_assoc] at heq
        obtain ⟨rfl, _⟩ := List.append_inj' heq rfl
        exact Or.inl (Or.inr ⟨before, after, rfl, he⟩)
  · rintro ((h | ⟨before, after, rfl, he⟩) | rfl | ⟨rfl, he⟩)
    · exact Or.inl (List.mem_append_left _ h)
    · exact Or.inr ⟨before, after ++ [step], by simp, he⟩
    · exact Or.inl (List.mem_append_right _ List.mem_cons_self)
    · exact Or.inr ⟨steps, [], rfl, he⟩

theorem mem_paired : (a, e, f) ∈ steps.filterMap paired ↔ .indistinguishable a e f ∈ steps := by
  rw [List.mem_filterMap]
  constructor
  · rintro ⟨step, hstep, h⟩
    cases step <;> cases h
    exact hstep
  · exact fun h => ⟨_, h, rfl⟩

/-- What comes before a declared pair. -/
theorem split_of_paired {l l' : List (Agent × EventId × EventId)}
    (h : steps.filterMap paired = l ++ (a, e, f) :: l') :
    ∃ before after, steps = before ++ .indistinguishable a e f :: after ∧
      before.filterMap paired = l := by
  obtain ⟨before, rest, rfl, hbefore, hrest⟩ := List.filterMap_eq_append_iff.1 h
  obtain ⟨skipped, step, after, rfl, hskipped, hstep, _⟩ := List.filterMap_eq_cons_iff.1 hrest
  refine ⟨before ++ skipped, after, ?_, ?_⟩
  · cases step <;> cases hstep
    rw [List.append_assoc]
  · rw [List.filterMap_append, hbefore, List.filterMap_eq_nil_iff.2 hskipped, List.append_nil]

end ActionStep

/-! ### Drafts -/

namespace ActionDraft

open ActionStep

theorem after_snoc : after owner (steps ++ [step]) = (after owner steps).extend step := by
  rw [after, List.foldl_append]
  rfl

/-- However handles are given out, a draft has the events that have been added. -/
theorem events_foldl_extendBy (ids : ActionDraft → List EventId) (owner : Agent) :
    (steps.foldl (extendBy ids) (.initial owner)).events = eventsOf steps := by
  induction steps using List.reverseRecOn with
  | nil => rfl
  | append_singleton steps step ih =>
    rw [List.foldl_append, eventsOf_snoc, ← ih]
    cases step <;> simp [extendBy, added]

theorem events_after (owner : Agent) : (after owner steps).events = eventsOf steps :=
  events_foldl_extendBy eventIds owner

theorem mem_eventIds_after (owner : Agent) :
    e ∈ (after owner steps).eventIds ↔ Adds steps e := by
  rw [eventIds, events_after, Adds, List.mem_map]
  constructor
  · rintro ⟨i, hi, rfl⟩
    exact List.mem_range.1 hi
  · exact fun h => ⟨e.index, List.mem_range.2 h, rfl⟩

theorem mem_designated_after (owner : Agent) :
    e ∈ (after owner steps).designated ↔ Designates steps e := by
  induction steps using List.reverseRecOn with
  | nil => simp [after, initial, Designates]
  | append_singleton steps step ih =>
    rw [after_snoc, designates_snoc, ← ih, ← mem_eventIds_after owner]
    cases step <;> simp [extend, extendBy, or_comm, eq_comm]

theorem declared_after : (after owner steps).declared = steps.filterMap paired := by
  induction steps using List.reverseRecOn with
  | nil => rfl
  | append_singleton steps step ih =>
    rw [after_snoc, List.filterMap_append, ← ih]
    cases step <;> simp [extend, extendBy, paired]

theorem mem_observers_after : a ∈ (after owner steps).observers ↔ Involves owner steps a := by
  have hagents : a ∈ steps.flatMap ActionStep.agents ↔
      .observer a ∈ steps ∨ ∃ e f, .indistinguishable a e f ∈ steps := by
    rw [List.mem_flatMap]
    constructor
    · rintro ⟨step, hstep, h⟩
      cases step <;> simp only [agents, List.mem_singleton, List.not_mem_nil] at h
      · exact Or.inl (h ▸ hstep)
      · exact Or.inr ⟨_, _, h ▸ hstep⟩
    · rintro (h | ⟨e, f, h⟩)
      · exact ⟨_, h, List.mem_singleton.2 rfl⟩
      · exact ⟨_, h, List.mem_singleton.2 rfl⟩
  rw [after, mem_observers_foldl, hagents, initial, SortedSet.mem_singleton, Involves]

theorem mem_links_after : (a, Link.of e f) ∈ (after owner steps).links ↔ Pairs steps a e f := by
  rw [links, declared_after, List.mem_map]
  constructor
  · rintro ⟨⟨b, x, y⟩, hmem, heq⟩
    obtain ⟨rfl, hlink⟩ := Prod.ext_iff.1 heq
    rcases Link.of_eq_of_iff.1 hlink with ⟨rfl, rfl⟩ | ⟨rfl, rfl⟩
    · exact Or.inl (mem_paired.1 hmem)
    · exact Or.inr (mem_paired.1 hmem)
  · rintro (h | h)
    · exact ⟨_, mem_paired.2 h, rfl⟩
    · exact ⟨_, mem_paired.2 h, Prod.ext rfl (Link.of_eq_of_iff.2 (Or.inr ⟨rfl, rfl⟩))⟩

theorem holds_relation_after : (after owner steps).assembly.Holds (after owner steps).relation :=
  Assembly.holds_of_result (result_assembly declared_observed)

/-- Two different events are linked when they have been declared as a pair. -/
theorem adjacent_relation_after (hne : e ≠ f) :
    (after owner steps).relation.Adjacent a e f ↔ Pairs steps a e f := by
  rw [holds_relation_after.adjacent, allLinks_assembly, mem_links_after]
  exact or_iff_right fun h => hne h.2.1

/-- The relation of a draft whose pairs are of events has no other nodes. -/
theorem mem_eventIds_of_mem_relation
    (hpaired : ∀ a e f, .indistinguishable a e f ∈ steps → Adds steps e ∧ Adds steps f)
    (he : e ∈ (after owner steps).relation.nodes) : e ∈ (after owner steps).eventIds := by
  rcases mem_allNodes_assembly.1 ((holds_relation_after.nodes e).1 he) with he | ⟨p, hp, hend⟩
  · exact he
  · rw [links, declared_after, List.mem_map] at hp
    obtain ⟨⟨b, x, y⟩, hmem, rfl⟩ := hp
    obtain ⟨hx, hy⟩ := hpaired b x y (mem_paired.1 hmem)
    rw [← mem_eventIds_after owner] at hx hy
    rcases Link.eq_end_of_iff.1 hend with rfl | rfl
    · exact hx
    · exact hy

theorem nodup_eventIds {d : ActionDraft} : d.eventIds.Nodup :=
  List.nodup_range.map fun _ _ h => Handle.mk.inj h

/-! ### Which drafts are accepted -/

/-- The pair is not one of the first `n` events. -/
def strays (n : Nat) : Agent × EventId × EventId → Bool
  | (_, e, f) => n ≤ e.index || n ≤ f.index

theorem strays_eq_false_iff : strays (eventsOf steps).length (a, e, f) = false ↔
    Adds steps e ∧ Adds steps f := by
  simp [strays, Adds]

theorem isEmpty_designated_iff :
    (after owner steps).designated.isEmpty = true ↔ ¬∃ e, Designates steps e := by
  rw [SortedSet.isEmpty, List.isEmpty_iff, List.eq_nil_iff_forall_not_mem, not_exists]
  exact forall_congr' fun e => not_congr (mem_designated_after owner)

theorem refused_of_find_declared (hevents : eventsOf steps ≠ [])
    (hdes : ∃ e, Designates steps e)
    (h : (after owner steps).declared.find? (strays (eventsOf steps).length) =
      some (a, e, f)) : Refused steps (.unknownEvent e f) := by
  rw [declared_after] at h
  obtain ⟨hstray, l, l', heq, hfirst⟩ := List.find?_eq_some_iff_append.1 h
  obtain ⟨before, after, hsteps, rfl⟩ := split_of_paired heq
  refine .unknownEvent hevents hdes hsteps ?_ fun b x y hb => ?_
  · rw [← strays_eq_false_iff, hstray]
    exact Bool.noConfusion
  · have hno := hfirst _ (mem_paired.2 hb)
    rwa [Bool.not_eq_true', strays_eq_false_iff] at hno

theorem paired_of_find_declared
    (h : (after owner steps).declared.find? (strays (eventsOf steps).length) = none) :
    ∀ a e f, .indistinguishable a e f ∈ steps → Adds steps e ∧ Adds steps f := by
  intro a e f hmem
  rw [declared_after, List.find?_eq_none] at h
  exact strays_eq_false_iff.1 (Bool.eq_false_iff.2 (h _ (mem_paired.2 hmem)))

theorem refused_of_find_designated (hevents : eventsOf steps ≠ [])
    (hpaired : ∀ a e f, .indistinguishable a e f ∈ steps → Adds steps e ∧ Adds steps f)
    (h : (after owner steps).designated.toList.find? (fun n => n ∉ (after owner steps).eventIds) =
      some e) : Refused steps (.shape (.strayDesignated e)) := by
  have hdes : Designates steps e :=
    (mem_designated_after owner).1 (List.mem_of_find?_eq_some h)
  obtain ⟨hstray, l, l', heq, hfirst⟩ := List.find?_eq_some_iff_append.1 h
  have hsorted := (after owner steps).designated.ascending
  rw [decide_eq_true_eq, mem_eventIds_after] at hstray
  refine .strayDesignated hevents hpaired hdes hstray fun x hx hlt => ?_
  have hx := (mem_designated_after owner).2 hx
  rw [SortedSet.mem_def, heq, List.mem_append, List.mem_cons] at hx
  rw [heq, List.pairwise_append, List.pairwise_cons] at hsorted
  rcases hx with hx | rfl | hx
  · have hno := hfirst x hx
    simpa [mem_eventIds_after] using hno
  · exact absurd hlt (Nat.lt_irrefl _)
  · have hafter : e.index < x.index := Nat.compare_eq_lt.1 (hsorted.2.1.1 x hx)
    exact absurd hlt (Nat.lt_asymm hafter)

/-- Events are listed once and the relation has no other nodes, so only a designated handle can
still be amiss. -/
theorem refused_of_ofParts (hevents : eventsOf steps ≠ [])
    (hpaired : ∀ a e f, .indistinguishable a e f ∈ steps → Adds steps e ∧ Adds steps f)
    {shape : ShapeDefect .event} (h : PointedModel.ofParts (after owner steps).eventIds
      (after owner steps).designated (after owner steps).relation = .error shape) :
    Refused steps (.shape shape) := by
  rw [PointedModel.ofParts, if_pos nodup_eventIds] at h
  split at h
  · next hstray =>
    cases h
    exact refused_of_find_designated hevents hpaired hstray
  · split at h
    · next n hstray =>
      have hno := List.find?_some hstray
      rw [decide_eq_true_eq] at hno
      exact absurd (mem_eventIds_of_mem_relation hpaired (List.mem_of_find?_eq_some hstray)) hno
    · cases h

theorem model_eq (d : ActionDraft) : d.model =
    if d.events.isEmpty then .error .noEvents
    else if d.designated.isEmpty then .error .noDesignated
    else
      match d.declared.find? (strays d.events.length) with
      | some (_, e, f) => .error (.unknownEvent e f)
      | none => (PointedModel.ofParts d.eventIds d.designated d.relation).mapError .shape := rfl

theorem events_ne_nil (h : ¬(after owner steps).events.isEmpty = true) :
    eventsOf steps ≠ [] := by
  rwa [List.isEmpty_iff, events_after] at h

theorem acceptable_of_model {model : PointedModel .event}
    (h : (after owner steps).model = .ok model) : Acceptable steps := by
  rw [model_eq] at h
  split at h
  · cases h
  next hevents =>
  split at h
  · cases h
  next hdes =>
  split at h
  · cases h
  next hfind =>
  rw [isEmpty_designated_iff, not_not] at hdes
  rw [events_after] at hfind
  obtain ⟨_, hdesignated, _, _⟩ := PointedModel.ofParts_eq_ok (Fallible.mapError_eq_ok h)
  refine ⟨events_ne_nil hevents, hdes, fun e he => ?_, paired_of_find_declared hfind⟩
  exact (mem_eventIds_after owner).1 (hdesignated e ((mem_designated_after owner).2 he))

theorem refused_of_model {defect : ActionDefect} (h : (after owner steps).model = .error defect) :
    Refused steps defect := by
  rw [model_eq] at h
  split at h
  · next hevents =>
    cases h
    rw [List.isEmpty_iff, events_after] at hevents
    exact .noEvents hevents
  next hevents =>
  have hevents := events_ne_nil hevents
  split at h
  · next hdes =>
    cases h
    exact .noDesignated hevents (isEmpty_designated_iff.1 hdes)
  next hdes =>
  rw [isEmpty_designated_iff, not_not] at hdes
  rw [events_after] at h
  split at h
  · next hfind =>
    cases h
    exact refused_of_find_declared hevents hdes hfind
  next hfind =>
  have hpaired := paired_of_find_declared hfind
  obtain ⟨shape, hshape, rfl⟩ := Fallible.mapError_eq_error h
  exact refused_of_ofParts hevents hpaired hshape

/-! ### Pair by pair -/

/-- Links a declared pair once it has been checked to be of the first `n` events. What goes wrong
is told in words. -/
def linkChecked (n : Nat) (r : Accessibility .event) :
    Agent × EventId × EventId → Except String (Accessibility .event)
  | (a, e, f) =>
    if n ≤ e.index ∨ n ≤ f.index then .error (ActionDefect.unknownEvent e f).message
    else (r.addLink a e f).mapError ModelError.message

/-- The model of a draft whose pairs are checked and linked one after another. -/
def modelInTurn (d : ActionDraft) : Except String (PointedModel .event) :=
  if d.events.isEmpty then .error ActionDefect.noEvents.message
  else if d.designated.isEmpty then .error ActionDefect.noDesignated.message
  else do
    let r ← d.declared.foldlM (linkChecked d.events.length)
      (Accessibility.discrete d.observers.toList d.eventIds)
    (PointedModel.ofParts d.eventIds d.designated r).mapError ShapeDefect.message

/-- Checking every pair before it is linked comes to the same as checking all of them first. -/
theorem foldlM_linkChecked {n : Nat} {r : Accessibility .event}
    {l : List (Agent × EventId × EventId)} (h : ∀ p ∈ l, r.hasAgent p.1 = true) :
    l.foldlM (linkChecked n) r =
      match l.find? (strays n) with
      | some (_, e, f) => .error (ActionDefect.unknownEvent e f).message
      | none => .ok (l.foldl (fun r (a, e, f) => r.link a e f) r) := by
  induction l generalizing r with
  | nil => rfl
  | cons p l ih =>
    obtain ⟨a, e, f⟩ := p
    rw [List.foldlM_cons, List.find?_cons, linkChecked]
    by_cases hstray : n ≤ e.index ∨ n ≤ f.index
    · have hfirst : strays n (a, e, f) = true := by simpa [strays] using hstray
      rw [if_pos hstray, hfirst]
      rfl
    · have hfirst : strays n (a, e, f) = false := by simpa [strays] using hstray
      have hlink : (r.addLink a e f).mapError ModelError.message = .ok (r.link a e f) := by
        rw [Accessibility.addLink_eq_ok (h _ List.mem_cons_self)]
        rfl
      rw [if_neg hstray, hfirst, hlink]
      refine ih fun q hq => ?_
      rw [Accessibility.hasAgent_link]
      exact h q (List.mem_cons_of_mem _ hq)

theorem modelInTurn_eq :
    (after owner steps).modelInTurn = (after owner steps).model.mapError ActionDefect.message := by
  have hknown : ∀ p ∈ (after owner steps).declared, (Accessibility.discrete
      (after owner steps).observers.toList (after owner steps).eventIds).hasAgent p.1 = true :=
    fun p hp => Accessibility.hasAgent_discrete.2 (declared_observed p hp)
  rw [modelInTurn, model_eq, foldlM_linkChecked hknown]
  split
  · rfl
  split
  · rfl
  cases (after owner steps).declared.find? (strays (after owner steps).events.length) with
  | some p => rfl
  | none =>
    change (PointedModel.ofParts _ _ (after owner steps).relation).mapError _ =
      ((PointedModel.ofParts _ _ (after owner steps).relation).mapError _).mapError _
    cases PointedModel.ofParts (after owner steps).eventIds (after owner steps).designated
      (after owner steps).relation <;> rfl

/-! ### Handles that are words -/

theorem words_eq {d : ActionDraft} (h : d.events.length ≤ UInt32.size) : d.words = d.eventIds := by
  have hword : ∀ e ∈ d.eventIds, e.word = e := by
    intro e he
    obtain ⟨i, hi, rfl⟩ := List.mem_map.1 he
    exact Handle.word_eq (Nat.lt_of_lt_of_le (List.mem_range.1 hi) h)
  exact (List.map_congr_left hword).trans (List.map_id _)

theorem words_after (h : (eventsOf steps).length ≤ UInt32.size) :
    (after owner steps).words = (after owner steps).eventIds :=
  words_eq (by rwa [events_after])

/-- Once words have run out, the last one is given to two events. -/
theorem not_nodup_words {d : ActionDraft} (h : UInt32.size < d.events.length) :
    ¬d.words.Nodup := by
  intro hnodup
  have hmem : ∀ i < d.events.length, Handle.mk i ∈ d.eventIds := fun i hi =>
    List.mem_map.2 ⟨i, List.mem_range.2 hi, rfl⟩
  have hlast : Handle.mk (UInt32.size - 1) ∈ d.eventIds := hmem _ (by omega)
  have hsame := List.inj_on_of_nodup_map hnodup hlast (hmem _ h) rfl
  exact absurd (Handle.mk.inj hsame) (by decide)

theorem foldl_extendBy_words (h : (eventsOf steps).length ≤ UInt32.size) :
    steps.foldl (extendBy words) (.initial owner) = after owner steps := by
  induction steps using List.reverseRecOn with
  | nil => rfl
  | append_singleton steps step ih =>
    have hfew : (eventsOf steps).length ≤ UInt32.size := by
      rw [eventsOf_snoc, List.length_append] at h
      omega
    rw [List.foldl_append, ih hfew, after_snoc]
    cases step with
    | designateAll =>
      -- the only step that gives handles to events
      simp only [List.foldl_cons, List.foldl_nil, extend, extendBy, words_after hfew]
    | _ => rfl

theorem modelOver_eq_error {d : ActionDraft} {ids : List EventId} (h : ¬ids.Nodup) :
    ∃ defect, d.modelOver ids = .error defect := by
  unfold modelOver
  rw [PointedModel.ofParts, if_neg h]
  split
  · exact ⟨_, rfl⟩
  split
  · exact ⟨_, rfl⟩
  split <;> exact ⟨_, rfl⟩

end ActionDraft

/-! ### Actions -/

namespace Action

open ActionStep

variable {action : Action}

/-- An accepted action is made up of its draft. -/
theorem eq_of_ofSteps (h : ofSteps name owner steps = .ok action) :
    action = ⟨name, owner, eventsOf steps, (ActionDraft.after owner steps).eventIds,
      (ActionDraft.after owner steps).designated,
      (ActionDraft.after owner steps).eventIds.foldl Accessibility.addNode
        (ActionDraft.after owner steps).relation⟩ := by
  obtain ⟨model, hparts, rfl⟩ := ActionDeclaration.Declares.eq (d := ⟨name, owner, steps⟩) h
  obtain ⟨_, _, _, rfl⟩ := PointedModel.ofParts_eq_ok hparts
  rw [← ActionDraft.events_after owner]
  rfl

theorem hasAgent_of_ofSteps (h : ofSteps name owner steps = .ok action) :
    action.relation.hasAgent a = true ↔ Involves owner steps a := by
  rw [eq_of_ofSteps h, relation, Accessibility.hasAgent_foldl_addNode,
    ActionDraft.holds_relation_after.agents, ActionDraft.mem_allAgents_assembly,
    ActionDraft.mem_observers_after]

theorem mem_nodes_of_ofSteps (h : ofSteps name owner steps = .ok action) :
    e ∈ action.relation.nodes ↔ Adds steps e := by
  have hpaired := (ActionDraft.acceptable_of_model (ofSteps_eq_ok h).1).paired
  rw [eq_of_ofSteps h, relation, Accessibility.mem_nodes_foldl_addNode,
    ← ActionDraft.mem_eventIds_after owner]
  exact or_iff_right_of_imp (ActionDraft.mem_eventIds_of_mem_relation hpaired)

/-- The chains in the relation of an action are those of declared pairs. -/
theorem reflTransGen_of_ofSteps (h : ofSteps name owner steps = .ok action) :
    ReflTransGen (action.relation.Adjacent a) e f ↔ ReflTransGen (Pairs steps a) e f := by
  have hlinks : ∀ x y, (x ≠ y ∧ action.relation.Adjacent a x y) ↔ (x ≠ y ∧ Pairs steps a x y) := by
    intro x y
    refine and_congr_right fun hne => ?_
    rw [eq_of_ofSteps h, relation, Accessibility.adjacent_foldl_addNode,
      ActionDraft.adjacent_relation_after hne]
    exact or_iff_left fun hloop => hne hloop.2.1
  rw [← reflTransGen_ne_iff, ← reflTransGen_ne_iff (r := Pairs steps a)]
  simp only [hlinks]

theorem isRelated_of_ofSteps (h : ofSteps name owner steps = .ok action)
    (ha : Involves owner steps a) : ∃ b, action.relation.isRelated a e f = .ok b ∧
      (b = true ↔ ReflTransGen (Pairs steps a) e f) := by
  have hagent := (hasAgent_of_ofSteps h).2 ha
  have hanswer := Accessibility.isRelated_eq_ok (m := e) (n := f) hagent
  have hrelated := Accessibility.isRelated_iff (m := e) (n := f) hagent
  rw [hanswer, Except.ok.injEq, reflTransGen_of_ofSteps h] at hrelated
  exact ⟨_, hanswer, hrelated⟩

theorem declare_of_ofSteps (h : ofSteps name owner steps = .ok action) :
    Declare name owner steps action where
  called := congrArg Action.name (eq_of_ofSteps h)
  ownedBy := congrArg Action.owner (eq_of_ofSteps h)
  events := congrArg Action.events (eq_of_ofSteps h)
  event before x after hsteps := by
    rw [eq_of_ofSteps h]
    exact getElem?_eventsOf_of_split hsteps
  possible := by
    rw [eq_of_ofSteps h, ← ActionDraft.events_after owner]
    rfl
  designated e := by
    rw [eq_of_ofSteps h]
    exact SortedSet.contains_iff.trans (ActionDraft.mem_designated_after owner)
  agents _ := hasAgent_of_ofSteps h
  nodes _ := mem_nodes_of_ofSteps h
  cuts := by
    rw [eq_of_ofSteps h, relation, Accessibility.cuts_foldl_addNode]
    exact ActionDraft.holds_relation_after.cuts
  related _ ha _ _ := isRelated_of_ofSteps h ha

/-- Steps that are refused are refused for their first defect. -/
theorem refused_of_ofSteps {error : ValidationError} (h : ofSteps name owner steps = .error error) :
    ∃ defect, Refused steps defect ∧ error = .malformedAction name defect := by
  unfold ofSteps ofStepsBy at h
  dsimp only at h
  split at h
  · cases h
  · next defect hdefect =>
    cases h
    exact ⟨defect, ActionDraft.refused_of_model hdefect, rfl⟩

theorem exists_ofSteps_iff :
    (∃ action, ofSteps name owner steps = .ok action) ↔ Acceptable steps := by
  constructor
  · rintro ⟨action, h⟩
    exact ActionDraft.acceptable_of_model (ofSteps_eq_ok h).1
  · intro h
    cases hbuilt : ofSteps name owner steps with
    | ok action => exact ⟨action, rfl⟩
    | error error =>
      obtain ⟨defect, hdefect, _⟩ := refused_of_ofSteps hbuilt
      exact absurd hdefect (h.not_refused defect)

/-- As long as every event has a word of its own, it does not matter that handles are words. -/
theorem ofStepsInWords_eq (h : (eventsOf steps).length ≤ UInt32.size) :
    ofStepsInWords name owner steps = ofSteps name owner steps := by
  unfold ofStepsInWords ofSteps ofStepsBy
  rw [ActionDraft.foldl_extendBy_words h]
  dsimp only
  rw [ActionDraft.words_after h]
  rfl

/-- With more events than words nothing is built, whatever else is declared. -/
theorem ofStepsInWords_eq_error (h : UInt32.size < (eventsOf steps).length) :
    ∃ defect, ofStepsInWords name owner steps = .error (.malformedAction name defect) := by
  rw [← ActionDraft.events_foldl_extendBy ActionDraft.words owner] at h
  obtain ⟨defect, hdefect⟩ := ActionDraft.modelOver_eq_error (ActionDraft.not_nodup_words h)
  refine ⟨defect, ?_⟩
  unfold ofStepsInWords ofStepsBy
  dsimp only
  rw [hdefect]

end Action

/-! ### All together -/

/-- What is built is what the steps declare, and what does not make up an action is refused. -/
structure BuiltAsDeclared (name : String) (owner : Agent) (steps : List ActionStep) : Prop where
  accepted : (∃ action, Action.ofSteps name owner steps = .ok action) ↔
    ActionStep.Acceptable steps
  built : ∀ action, Action.ofSteps name owner steps = .ok action →
    ActionStep.Declare name owner steps action
  refused : ∀ error, Action.ofSteps name owner steps = .error error →
    ∃ defect, ActionStep.Refused steps defect ∧ error = .malformedAction name defect
  /-- The pairs can as well be checked and linked one after another. -/
  inTurn : (ActionDraft.after owner steps).modelInTurn =
    (ActionDraft.after owner steps).model.mapError ActionDefect.message
  /-- Up to `UInt32.size` events the same is built with handles that are words. -/
  inWords : (ActionStep.eventsOf steps).length ≤ UInt32.size →
    Action.ofStepsInWords name owner steps = Action.ofSteps name owner steps

theorem built_as_declared (name : String) (owner : Agent) (steps : List ActionStep) :
    BuiltAsDeclared name owner steps where
  accepted := Action.exists_ofSteps_iff
  built _ h := Action.declare_of_ofSteps h
  refused _ h := Action.refused_of_ofSteps h
  inTurn := ActionDraft.modelInTurn_eq
  inWords := Action.ofStepsInWords_eq

namespace Lever

/-- Pulling to the left, with the last event designated and the first two paired before they are
added. -/
def earlySteps : List ActionStep :=
  [.designate ⟨2⟩, .indistinguishable right ⟨0⟩ ⟨1⟩, move 0 0, .designateAll, move 1 0,
    .observer ⟨"bystander"⟩, move 2 1, .indistinguishable right ⟨2⟩ ⟨1⟩]

def early : Action := Fallible.get (Action.ofSteps "pull_left" left earlySteps) (by decide)

theorem early_eq : Action.ofSteps "pull_left" left earlySteps = .ok early :=
  Fallible.eq_ok_get _ _

/-- The steps declare an action in which the middle event is not designated, and whose first and
last events are confused with each other by the agent for whom both are paired with it. -/
theorem early_declared : ActionStep.Acceptable earlySteps ∧
    early.isDesignated ⟨0⟩ = true ∧ early.isDesignated ⟨1⟩ = false ∧
      early.isDesignated ⟨2⟩ = true ∧ early.relation.hasAgent ⟨"bystander"⟩ = true ∧
      early.relation.isRelated right ⟨0⟩ ⟨2⟩ = .ok true ∧
      early.relation.isRelated left ⟨0⟩ ⟨2⟩ = .ok false := by
  have hbuilt := built_as_declared "pull_left" left earlySteps
  have hdeclare := hbuilt.built early early_eq
  have hfirst : .indistinguishable right ⟨0⟩ ⟨1⟩ ∈ earlySteps := by simp [earlySteps]
  have hlast : .indistinguishable right ⟨2⟩ ⟨1⟩ ∈ earlySteps := by simp [earlySteps]
  have hchain : ReflTransGen (ActionStep.Pairs earlySteps right) ⟨0⟩ ⟨2⟩ :=
    .tail (.single (Or.inl hfirst)) (Or.inr hlast)
  have hright : ActionStep.Involves left earlySteps right := Or.inr (Or.inr ⟨_, _, hfirst⟩)
  obtain ⟨b, hb, hrelated⟩ := hdeclare.related right hright ⟨0⟩ ⟨2⟩
  refine ⟨hbuilt.accepted.1 ⟨early, early_eq⟩, ?_, by decide, ?_, ?_, ?_, by decide⟩
  · exact (hdeclare.designated _).2 (Or.inr ⟨[_, _, move 0 0], _, rfl, Nat.one_pos⟩)
  · exact (hdeclare.designated _).2 (Or.inl List.mem_cons_self)
  · exact (hdeclare.agents _).2 (Or.inr (Or.inl (by simp [earlySteps])))
  · rw [hb, hrelated.2 hchain]

end Lever

end EpistemicPlanning
