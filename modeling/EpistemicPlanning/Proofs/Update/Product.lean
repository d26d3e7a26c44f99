import EpistemicPlanning.Proofs.Lever
import EpistemicPlanning.Proofs.Update.Indistinguishability

/-!
# The product of a state and an action

`Update.apply` computes the product: one world for each pair of a world and an event that fires
there, with the relations of both factors (`IsProduct`). It has no result exactly when all
preconditions can be told and no pair of a designated world and a designated event fires.
-/
namespace EpistemicPlanning.Update

open Relation

variable {t : PlanningTask} {arena : Arena} {state : State} {action : Action} {a : ActionId}

/-- `next`, with its worlds in `arena'`, is the product of a state and an action. Its `i`-th world
continues the `i`-th firing pair. -/
structure IsProduct (t : PlanningTask) (arena : Arena) (state : State) (action : Action)
    (a : ActionId) (next : State) (arena' : Arena) : Prop where
  /-- Each firing pair is listed once, in the order of worlds and then of events. -/
  nodup : (firing t arena state action a).Nodup
  /-- Each firing pair has one world, and these worlds have consecutive fresh handles. -/
  possible : next.possible =
    (List.range' arena.worlds.size (firing t arena state action a).length).map Handle.mk
  /-- A world was made of its pair by the action. -/
  provenance : ∀ i p, (firing t arena state action a)[i]? = some p →
    ∃ e, (arena'.world ⟨arena.worlds.size + i⟩).incoming = some e ∧
      (arena'.edge e).child = ⟨arena.worlds.size + i⟩ ∧ (arena'.edge e).parent = p.1 ∧
      (arena'.edge e).event = p.2 ∧ (arena'.edge e).action = a ∧
      (arena'.edge e).agent = action.owner
  /-- It has the valuation of the old world, changed by the effects of the event. -/
  valuation : ∀ i p, (firing t arena state action a)[i]? = some p →
    ∀ outcome, t.outcomeAt? arena p.1 a p.2 = some outcome →
      (arena'.world ⟨arena.worlds.size + i⟩).valuation =
        (arena.world p.1).valuation.apply outcome.effects
  /-- It is designated when both parts of its pair are, and no other world is. -/
  designated : ∀ w, w ∈ next.designated ↔
    ∃ i p, (firing t arena state action a)[i]? = some p ∧ w = ⟨arena.worlds.size + i⟩ ∧
      p.1 ∈ state.designated ∧ p.2 ∈ action.designated
  agents : next.agents = state.agents
  /-- An agent of both relations tells two worlds apart when it tells their old worlds apart or
  their events. -/
  shared : ∀ ag, state.relation.hasAgent ag = true → action.relation.hasAgent ag = true →
    ∀ i p j q, (firing t arena state action a)[i]? = some p →
      (firing t arena state action a)[j]? = some q →
      (next.relation.isRelated ag ⟨arena.worlds.size + i⟩ ⟨arena.worlds.size + j⟩ = .ok true ↔
        state.relation.isRelated ag p.1 q.1 = .ok true ∧
          action.relation.isRelated ag p.2 q.2 = .ok true)
  /-- Any other agent tells all worlds apart. -/
  alone : ∀ ag, state.relation.hasAgent ag = true → action.relation.hasAgent ag = false →
    ∀ w v, next.relation.isRelated ag w v = .ok true ↔ w = v

theorem nodup_eventIds : action.eventIds.Nodup :=
  List.Nodup.map (fun _ _ h => congrArg Handle.index h) List.nodup_range

theorem nodup_pairs (h : state.possible.Nodup) : (pairs state action).Nodup := by
  unfold pairs
  refine List.nodup_flatMap.2 ⟨fun w _ => ?_, ?_⟩
  · exact List.Nodup.map (fun _ _ h => (Prod.mk.inj h).2) nodup_eventIds
  · refine h.imp fun {w v} hne p hpw hpv => ?_
    obtain ⟨_, _, rfl⟩ := List.mem_map.1 hpw
    obtain ⟨_, _, heq⟩ := List.mem_map.1 hpv
    exact hne (Prod.mk.inj heq).1.symm

/-- What is placed at position `i` among the new worlds stands for the `i`-th firing pair. -/
theorem placed_of_firing {cs : List Candidate}
    (h : (candidates (t := t) arena state action a (pairs state action)).value = .ok cs) {i : Nat}
    {p : WorldId × EventId} (hp : (firing t arena state action a)[i]? = some p) :
    ∃ c, cs[i]? = some c ∧ c.pair = p ∧ (⟨arena.worlds.size + i⟩, c) ∈ placed arena cs := by
  rw [firing, ← map_pair_candidates h, List.getElem?_map, Option.map_eq_some_iff] at hp
  obtain ⟨c, hc, hpair⟩ := hp
  exact ⟨c, hc, hpair, mem_placed.2 ⟨i, hc, rfl⟩⟩

theorem parent_in_arena {cs : List Candidate}
    (h : (candidates (t := t) arena state action a (pairs state action)).value = .ok cs)
    (harena : ∀ w ∈ state.possible, arena.contains w = true) :
    ∀ c ∈ cs, c.parent.index < arena.worlds.size := by
  intro c hc
  have hmem : c.pair ∈ firing t arena state action a := by
    rw [firing, ← map_pair_candidates h]
    exact List.mem_map_of_mem hc
  exact Arena.contains_iff.1 (harena _ (mem_firing.1 hmem).1)

/-- A successful update only appends to the arena. -/
theorem appended_of_value {next' : State} {arena' : Arena} (hact : t.action? a = some action)
    (harena : ∀ w ∈ state.possible, arena.contains w = true)
    (h : (apply (t := t) arena state a).value = (.ok (some next'), arena')) :
    arena'.Appended arena := by
  obtain ⟨cs, hcs, _, _, rfl⟩ := value_apply_eq_some hact h
  exact appended_grow action.owner (parent_in_arena hcs harena)

theorem isProduct_of_value {next' : State} {arena' : Arena} (hact : t.action? a = some action)
    (hnodup : state.possible.Nodup) (harena : ∀ w ∈ state.possible, arena.contains w = true)
    (h : (apply (t := t) arena state a).value = (.ok (some next'), arena')) :
    IsProduct t arena state action a next' arena' := by
  obtain ⟨cs, hcs, _, rfl, rfl⟩ := value_apply_eq_some hact h
  have hparent := parent_in_arena hcs harena
  have hcorrect := correct_candidates hcs
  have hlength : cs.length = (firing t arena state action a).length := by
    rw [firing, ← map_pair_candidates hcs, List.length_map]
  refine ⟨(nodup_pairs hnodup).filter _, ?_, ?_, ?_, fun w => ?_, agents_next, ?_, ?_⟩
  · rw [possible_next, hlength]
  · intro i p hp
    obtain ⟨c, hc, rfl, _⟩ := placed_of_firing hcs hp
    refine ⟨⟨arena.edges.size + i⟩, ?_, ?_⟩
    · rw [world_grow_new hparent hc]
    · rw [edge_grow_new hc]
      exact ⟨rfl, rfl, rfl, rfl, rfl⟩
  · intro i p hp outcome houtcome
    obtain ⟨c, hc, rfl, _⟩ := placed_of_firing hcs hp
    rw [world_grow_new hparent hc]
    exact (hcorrect c (List.mem_of_getElem? hc)).valuation outcome houtcome
  · rw [mem_designated_next]
    constructor
    · rintro ⟨⟨v, c⟩, hplaced, hdes, rfl⟩
      obtain ⟨i, hc, hv⟩ := mem_placed.1 hplaced
      refine ⟨i, c.pair, ?_, hv, (hcorrect c (List.mem_of_getElem? hc)).designated.1 hdes⟩
      rw [firing, ← map_pair_candidates hcs, List.getElem?_map, hc]
      rfl
    · rintro ⟨i, p, hp, rfl, hdes⟩
      obtain ⟨c, hc, rfl, hplaced⟩ := placed_of_firing hcs hp
      exact ⟨_, hplaced, (hcorrect c (List.mem_of_getElem? hc)).designated.2 hdes, rfl⟩
  · intro ag hs ha i p j q hp hq
    obtain ⟨c, _, rfl, hplaced⟩ := placed_of_firing hcs hp
    obtain ⟨d, _, rfl, hplaced'⟩ := placed_of_firing hcs hq
    rw [Accessibility.isRelated_iff (hasAgent_next.trans hs), Accessibility.isRelated_iff hs,
      Accessibility.isRelated_iff ha]
    exact joined_next_shared hs ha hplaced hplaced'
  · intro ag hs ha w v
    rw [Accessibility.isRelated_iff (hasAgent_next.trans hs)]
    exact joined_next_alone hs ha

theorem mem_eventIds_of_fires (hact : t.action? a = some action) {w : WorldId} {e : EventId}
    (h : t.Fires arena state w a e) : e ∈ action.eventIds := by
  obtain ⟨_, ho, _⟩ := h
  obtain ⟨event, hev, _⟩ := Option.map_eq_some_iff.1 ho
  rw [PlanningTask.event?, hact] at hev
  exact PlanningTask.mem_eventIds.2 (List.getElem?_eq_some_iff.1 hev).1

/-- Some candidate is designated when a designated event fires at a designated world. -/
theorem any_designated_iff (hact : t.action? a = some action) (hstate : state.WellFormed)
    {cs : List Candidate}
    (h : (candidates (t := t) arena state action a (pairs state action)).value = .ok cs) :
    cs.any Candidate.designated = true ↔
      ∃ w ∈ state.designated, ∃ e ∈ action.designated, t.Fires arena state w a e := by
  have hcorrect := correct_candidates h
  rw [List.any_eq_true]
  constructor
  · rintro ⟨c, hc, hdes⟩
    obtain ⟨hw, he⟩ := (hcorrect c hc).designated.1 hdes
    exact ⟨c.parent, hw, c.event, he, (hcorrect c hc).fires⟩
  · rintro ⟨w, hw, e, he, hfires⟩
    have hmem : (w, e) ∈ firing t arena state action a :=
      mem_firing.2 ⟨hstate.designated_possible w hw, mem_eventIds_of_fires hact hfires, hfires⟩
    rw [firing, ← map_pair_candidates h] at hmem
    obtain ⟨c, hc, hpair⟩ := List.mem_map.1 hmem
    obtain ⟨rfl, rfl⟩ := Prod.mk.inj hpair
    exact ⟨c, hc, (hcorrect c hc).designated.2 ⟨hw, he⟩⟩

theorem decided_pairs_iff :
    (∀ p ∈ pairs state action, t.Decided arena state p.1 a p.2) ↔
      ∀ w ∈ state.possible, ∀ e ∈ action.eventIds, t.Decided arena state w a e := by
  constructor
  · intro h w hw e he
    exact h (w, e) (mem_pairs.2 ⟨hw, he⟩)
  · rintro h ⟨w, e⟩ hp
    exact h w (mem_pairs.1 hp).1 e (mem_pairs.1 hp).2

/-- An update gives a state when all preconditions can be told and a designated pair fires. -/
theorem value_apply_some_iff (hact : t.action? a = some action) (hstate : state.WellFormed) :
    (∃ next', (apply (t := t) arena state a).value.1 = .ok (some next')) ↔
      (∀ w ∈ state.possible, ∀ e ∈ action.eventIds, t.Decided arena state w a e) ∧
        ∃ w ∈ state.designated, ∃ e ∈ action.designated, t.Fires arena state w a e := by
  rw [value_apply hact, ← decided_pairs_iff, ← value_candidates_eq_ok_iff]
  cases hcs : (candidates (t := t) arena state action a (pairs state action)).value with
  | error e => simp
  | ok cs =>
    rw [← any_designated_iff hact hstate hcs]
    by_cases hany : cs.any Candidate.designated = true <;> simp [hany]

theorem value_apply_none_iff (hact : t.action? a = some action) (hstate : state.WellFormed) :
    (apply (t := t) arena state a).value.1 = .ok none ↔
      (∀ w ∈ state.possible, ∀ e ∈ action.eventIds, t.Decided arena state w a e) ∧
        ¬∃ w ∈ state.designated, ∃ e ∈ action.designated, t.Fires arena state w a e := by
  rw [value_apply hact, ← decided_pairs_iff, ← value_candidates_eq_ok_iff]
  cases hcs : (candidates (t := t) arena state action a (pairs state action)).value with
  | error e => simp
  | ok cs =>
    rw [← any_designated_iff hact hstate hcs]
    by_cases hany : cs.any Candidate.designated = true <;> simp [hany]

/-- Whatever has been remembered of dynamic events: the result of an update is the product; there is
one when all preconditions can be told and an event designated in the action fires at a designated
world, and there is none, without failure, when all can be told and no such pair fires. -/
theorem apply_meets_definition (hact : t.action? a = some action) (hstate : state.WellFormed)
    (harena : ∀ w ∈ state.possible, arena.contains w = true) (m : Memo t.outcome) :
    (∀ next' arena', ((apply (t := t) arena state a).run m).1 = (.ok (some next'), arena') →
      IsProduct t arena state action a next' arena') ∧
    ((∃ next', ((apply (t := t) arena state a).run m).1.1 = .ok (some next')) ↔
      (∀ w ∈ state.possible, ∀ e ∈ action.eventIds, t.Decided arena state w a e) ∧
        ∃ w ∈ state.designated, ∃ e ∈ action.designated, t.Fires arena state w a e) ∧
    (((apply (t := t) arena state a).run m).1.1 = .ok none ↔
      (∀ w ∈ state.possible, ∀ e ∈ action.eventIds, t.Decided arena state w a e) ∧
        ¬∃ w ∈ state.designated, ∃ e ∈ action.designated, t.Fires arena state w a e) := by
  rw [Consult.run_fst_eq_value]
  refine ⟨fun next' arena' h => ?_, value_apply_some_iff hact hstate,
    value_apply_none_iff hact hstate⟩
  exact isProduct_of_value hact hstate.nodup harena h

/-- Pulling the lever to the left has a result, which is the product. -/
theorem lever_pull_meets_definition :
    ∃ next' arena', ((apply (t := Lever.task) Lever.arena Lever.initial ⟨0⟩).run ∅).1 =
        (.ok (some next'), arena') ∧
      IsProduct Lever.task Lever.arena Lever.initial Lever.pullLeft ⟨0⟩ next' arena' := by
  have hmeets := @apply_meets_definition Lever.task Lever.arena Lever.initial
    Lever.pullLeft ⟨0⟩ rfl Lever.accepted.wellFormed
    Lever.accepted.inArena ∅
  have hsome : (((apply (t := Lever.task) Lever.arena Lever.initial ⟨0⟩).run ∅).1.1.toOption.bind
      id).isSome = true := by decide +kernel
  obtain ⟨next', hnext⟩ := Option.isSome_iff_exists.1 hsome
  obtain ⟨result, hresult, rfl⟩ := Option.bind_eq_some_iff.1 hnext
  cases hrun : ((apply (t := Lever.task) Lever.arena Lever.initial ⟨0⟩).run ∅).1 with
  | mk answer arena' =>
    rw [hrun] at hresult
    cases answer with
    | error e => cases hresult
    | ok state' =>
      cases hresult
      exact ⟨next', arena', rfl, hmeets.1 next' arena' hrun⟩

end EpistemicPlanning.Update
