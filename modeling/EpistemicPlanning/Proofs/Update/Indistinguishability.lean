import Mathlib.Data.List.Nodup
import EpistemicPlanning.Proofs.PointedModel
import EpistemicPlanning.Proofs.Update.Candidates

/-!
# Indistinguishability after an update

An agent of both relations links two new worlds exactly when it can tell apart neither the old
worlds nor the events (`adjacent_next_shared`). These links already form an equivalence, so that
chains of them add nothing (`joined_next_shared`). An agent that is not in the relation of the
action tells all new worlds apart (`joined_next_alone`).
-/
namespace EpistemicPlanning.Update

open Relation

variable {arena : Arena} {state : State} {action : Action} {cs : List Candidate}

/-! ### New worlds -/

theorem mem_placed {p : WorldId × Candidate} :
    p ∈ placed arena cs ↔ ∃ i, cs[i]? = some p.2 ∧ p.1 = ⟨arena.worlds.size + i⟩ := by
  obtain ⟨w, c⟩ := p
  simp only [placed, List.mem_map, Prod.exists, Prod.mk.injEq]
  constructor
  · rintro ⟨d, j, hj, rfl, rfl⟩
    obtain ⟨hle, hget⟩ := List.mk_mem_zipIdx_iff_le_and_getElem?_sub.1 hj
    exact ⟨j - arena.worlds.size, hget, by rw [Nat.add_sub_cancel' hle]⟩
  · rintro ⟨i, hget, rfl⟩
    refine ⟨c, arena.worlds.size + i, ?_, rfl, rfl⟩
    rw [List.mk_mem_zipIdx_iff_le_and_getElem?_sub, Nat.add_sub_cancel_left]
    exact ⟨Nat.le_add_right _ _, hget⟩

theorem placed_unique {p q : WorldId × Candidate} (hp : p ∈ placed arena cs)
    (hq : q ∈ placed arena cs) (h : p.1 = q.1) : p = q := by
  obtain ⟨i, hi, hpi⟩ := mem_placed.1 hp
  obtain ⟨j, hj, hqj⟩ := mem_placed.1 hq
  have hij : i = j := by
    rw [hpi, hqj] at h
    have := congrArg Handle.index h
    simp only at this
    omega
  subst hij
  rw [hi] at hj
  exact Prod.ext h (Option.some.inj hj)

theorem possible_next :
    (next arena state action cs).possible =
      (List.range' arena.worlds.size cs.length).map Handle.mk := by
  unfold next placed
  simp only [List.map_map]
  rw [← List.zipIdx_map_snd arena.worlds.size cs, List.map_map]
  rfl

theorem mem_possible_next {w : WorldId} :
    w ∈ (next arena state action cs).possible ↔ ∃ p ∈ placed arena cs, p.1 = w := by
  simp [next]

theorem mem_designated_next {w : WorldId} :
    w ∈ (next arena state action cs).designated ↔
      ∃ p ∈ placed arena cs, p.2.designated = true ∧ p.1 = w := by
  simp [next, and_assoc]

/-! ### Links between new worlds -/

theorem mem_linksAmong {ws : List (SortedSet WorldId)} {es : List (SortedSet EventId)}
    (hws : NoOverlap ws) (hes : NoOverlap es) {ps : List (WorldId × Candidate)}
    {l : Link .world} :
    l ∈ linksAmong ws es ps ↔ ∃ p ∈ ps, ∃ q ∈ ps, q.2.parent ∈ classOf ws p.2.parent ∧
      q.2.event ∈ classOf es p.2.event ∧ Link.of p.1 q.1 = l := by
  induction ps with
  | nil => simp [linksAmong]
  | cons x rest ih =>
    obtain ⟨w, c⟩ := x
    have hnear : ∀ q ∈ rest, Link.of w q.1 = l → q.2.parent ∈ classOf ws c.parent →
        q.2.event ∈ classOf es c.event → l ∈ linksAmong ws es ((w, c) :: rest) := by
      intro q hq hl hpar hev
      rw [linksAmong]
      refine List.mem_append_left _ (List.mem_cons_of_mem _ (List.mem_map.2 ⟨q, ?_, hl⟩))
      exact List.mem_filter.2 ⟨hq, by simp [hpar, hev]⟩
    constructor
    · intro h
      rw [linksAmong] at h
      rcases List.mem_append.1 h with h | h
      · rcases List.mem_cons.1 h with rfl | h
        · exact ⟨(w, c), List.mem_cons_self, (w, c), List.mem_cons_self, self_mem_classOf,
            self_mem_classOf, Link.of_self w⟩
        · obtain ⟨q, hq, hl⟩ := List.mem_map.1 h
          obtain ⟨hqrest, hcond⟩ := List.mem_filter.1 hq
          simp only [Bool.and_eq_true, SortedSet.contains_iff] at hcond
          exact ⟨(w, c), List.mem_cons_self, q, List.mem_cons_of_mem _ hqrest, hcond.1, hcond.2,
            hl⟩
      · obtain ⟨p, hp, q, hq, hrest⟩ := ih.1 h
        exact ⟨p, List.mem_cons_of_mem _ hp, q, List.mem_cons_of_mem _ hq, hrest⟩
    · rintro ⟨p, hp, q, hq, hpar, hev, hl⟩
      rcases List.mem_cons.1 hp with rfl | hp <;> rcases List.mem_cons.1 hq with rfl | hq
      · rw [linksAmong, ← hl, Link.of_self]
        exact List.mem_append_left _ List.mem_cons_self
      · exact hnear q hq hl hpar hev
      -- a pair is visited in one order only, and the other one gives the same link
      · rw [Link.of_comm] at hl
        exact hnear p hp hl ((mem_classOf_comm hws).1 hpar) ((mem_classOf_comm hes).1 hev)
      · rw [linksAmong]
        exact List.mem_append_right _ (ih.2 ⟨p, hp, q, hq, hpar, hev, hl⟩)

theorem hasAgent_next {ag : Agent} :
    (next arena state action cs).relation.hasAgent ag = state.relation.hasAgent ag := by
  simp [Accessibility.hasAgent, SortedMap.contains, next]

theorem agents_next : (next arena state action cs).agents = state.agents := by
  simp [PointedModel.agents, Accessibility.agents, SortedMap.keys, next, SortedMap.mapValues]

theorem adjacent_next {ag : Agent} {x y : WorldId} :
    (next arena state action cs).relation.Adjacent ag x y ↔
      state.relation.hasAgent ag = true ∧
        Link.of x y ∈ linksOf state action (placed arena cs) ag := by
  unfold Accessibility.Adjacent next
  simp only [SortedMap.find?_mapValues, Option.map_eq_some_iff, Accessibility.hasAgent_iff]
  constructor
  · rintro ⟨ls, ⟨old, hold, rfl⟩, h⟩
    exact ⟨⟨old, hold⟩, h⟩
  · rintro ⟨⟨old, hold⟩, h⟩
    exact ⟨_, ⟨old, hold, rfl⟩, h⟩

/-- New worlds are linked for an agent of both relations when neither their old worlds nor their
events can be told apart. -/
theorem adjacent_next_shared {ag : Agent} (hs : state.relation.hasAgent ag = true)
    (ha : action.relation.hasAgent ag = true) {x y : WorldId} :
    (next arena state action cs).relation.Adjacent ag x y ↔
      ∃ p ∈ placed arena cs, ∃ q ∈ placed arena cs, p.1 = x ∧ q.1 = y ∧
        ReflTransGen (state.relation.Adjacent ag) p.2.parent q.2.parent ∧
        ReflTransGen (action.relation.Adjacent ag) p.2.event q.2.event := by
  rw [adjacent_next, linksOf, if_pos ha, SortedSet.mem_ofList,
    mem_linksAmong (state.relation.noOverlap_classesOf ag .full)
      (action.relation.noOverlap_classesOf ag .full)]
  simp only [hs, true_and]
  constructor
  · rintro ⟨p, hp, q, hq, hpar, hev, hl⟩
    have hpar' := Accessibility.mem_class_full.1 hpar
    have hev' := Accessibility.mem_class_full.1 hev
    rcases Link.of_eq_of_iff.1 hl with ⟨hpx, hqy⟩ | ⟨hpy, hqx⟩
    · exact ⟨p, hp, q, hq, hpx, hqy, hpar', hev'⟩
    · exact ⟨q, hq, p, hp, hqx, hpy, Accessibility.joined_symm hpar',
        Accessibility.joined_symm hev'⟩
  · rintro ⟨p, hp, q, hq, rfl, rfl, hpar, hev⟩
    exact ⟨p, hp, q, hq, Accessibility.mem_class_full.2 hpar, Accessibility.mem_class_full.2 hev,
      rfl⟩

theorem adjacent_next_alone {ag : Agent} (hs : state.relation.hasAgent ag = true)
    (ha : action.relation.hasAgent ag = false) {x y : WorldId} :
    (next arena state action cs).relation.Adjacent ag x y ↔
      x = y ∧ ∃ p ∈ placed arena cs, p.1 = x := by
  rw [adjacent_next, linksOf, ha]
  simp only [hs, true_and, Bool.false_eq_true, if_false, SortedSet.mem_ofList, List.mem_map]
  constructor
  · rintro ⟨p, hp, h⟩
    obtain ⟨rfl, rfl⟩ := Link.of_eq_loop_iff.1 h.symm
    exact ⟨rfl, p, hp, rfl⟩
  · rintro ⟨rfl, p, hp, rfl⟩
    exact ⟨p, hp, (Link.of_self p.1).symm⟩

/-- Chains of links between new worlds lead no further than one link does. -/
theorem joined_next_shared {ag : Agent} (hs : state.relation.hasAgent ag = true)
    (ha : action.relation.hasAgent ag = true) {p q : WorldId × Candidate}
    (hp : p ∈ placed arena cs) (hq : q ∈ placed arena cs) :
    ReflTransGen ((next arena state action cs).relation.Adjacent ag) p.1 q.1 ↔
      ReflTransGen (state.relation.Adjacent ag) p.2.parent q.2.parent ∧
        ReflTransGen (action.relation.Adjacent ag) p.2.event q.2.event := by
  constructor
  · intro h
    have hchain : ∀ y, ReflTransGen ((next arena state action cs).relation.Adjacent ag) p.1 y →
        ∃ q ∈ placed arena cs, q.1 = y ∧
          ReflTransGen (state.relation.Adjacent ag) p.2.parent q.2.parent ∧
          ReflTransGen (action.relation.Adjacent ag) p.2.event q.2.event := by
      intro y hy
      -- each new world has one pair, so both factors of the chain can be followed
      induction hy with
      | refl => exact ⟨p, hp, rfl, ReflTransGen.refl, ReflTransGen.refl⟩
      | tail _ hstep ih =>
        obtain ⟨q, hq, hqy, hpar, hev⟩ := ih
        obtain ⟨q', hq', r, hr, hqy', rfl, hpar', hev'⟩ := (adjacent_next_shared hs ha).1 hstep
        obtain rfl := placed_unique hq hq' (hqy.trans hqy'.symm)
        exact ⟨r, hr, rfl, hpar.trans hpar', hev.trans hev'⟩
    obtain ⟨q', hq', heq, hjoin⟩ := hchain q.1 h
    obtain rfl := placed_unique hq' hq heq
    exact hjoin
  · intro h
    exact ReflTransGen.single
      ((adjacent_next_shared hs ha).2 ⟨p, hp, q, hq, rfl, rfl, h.1, h.2⟩)

theorem joined_next_alone {ag : Agent} (hs : state.relation.hasAgent ag = true)
    (ha : action.relation.hasAgent ag = false) {x y : WorldId} :
    ReflTransGen ((next arena state action cs).relation.Adjacent ag) x y ↔ x = y := by
  constructor
  · intro h
    induction h with
    | refl => rfl
    | tail _ hstep ih => exact ih.trans ((adjacent_next_alone hs ha).1 hstep).1
  · rintro rfl
    exact ReflTransGen.refl

theorem wellFormed_next : (next arena state action cs).WellFormed := by
  have hnodes : ∀ w, w ∈ (next arena state action cs).relation.nodes ↔
      w ∈ (next arena state action cs).possible := fun w => SortedSet.mem_ofList
  have hends : ∀ ag x y, (next arena state action cs).relation.Adjacent ag x y →
      (∃ p ∈ placed arena cs, p.1 = x) ∧ ∃ p ∈ placed arena cs, p.1 = y := by
    intro ag x y h
    have hs := (adjacent_next.1 h).1
    cases ha : action.relation.hasAgent ag with
    | true =>
      obtain ⟨p, hp, q, hq, hpx, hqy, _⟩ := (adjacent_next_shared hs ha).1 h
      exact ⟨⟨p, hp, hpx⟩, q, hq, hqy⟩
    | false =>
      obtain ⟨rfl, p, hp, hpx⟩ := (adjacent_next_alone hs ha).1 h
      exact ⟨⟨p, hp, hpx⟩, p, hp, hpx⟩
  refine ⟨?_, fun w hw => ?_, hnodes, fun ag x y h => ?_, fun ag hag w hw => ?_⟩
  · rw [possible_next]
    refine List.Nodup.map (fun _ _ h => congrArg Handle.index h) List.nodup_range'
  · obtain ⟨p, hp, _, rfl⟩ := mem_designated_next.1 hw
    exact mem_possible_next.2 ⟨p, hp, rfl⟩
  · rw [hnodes, hnodes, mem_possible_next, mem_possible_next]
    exact hends ag x y h
  · rw [hasAgent_next] at hag
    obtain ⟨p, hp, rfl⟩ := mem_possible_next.1 hw
    cases ha : action.relation.hasAgent ag with
    | true =>
      exact (adjacent_next_shared hag ha).2
        ⟨p, hp, p, hp, rfl, rfl, ReflTransGen.refl, ReflTransGen.refl⟩
    | false => exact (adjacent_next_alone hag ha).2 ⟨rfl, p, hp, rfl⟩

end EpistemicPlanning.Update
