import EpistemicPlanning.Proofs.Update.Product

/-!
# Applicability and product update

Whether an action is applicable is asked of the designated worlds and events alone, while its
product update goes through all of them. In a state with designated worlds the two agree: the
action is applicable when its update has a result in which every designated world is continued by a
designated one (`Update.applicable_iff_continued`).
-/
namespace EpistemicPlanning

open Fallible

variable {t : PlanningTask} {arena arena' : Arena} {state next' : State} {action : Action}
variable {a : ActionId} {w : WorldId}

namespace Updating

theorem tells_fires {e : EventId} :
    Tells (fires (t := t) arena state w a e).value (t.Fires arena state w a e) := by
  intro b hb
  cases b with
  | true => exact iff_of_true rfl (value_fires_eq_true.1 hb)
  | false => exact iff_of_false Bool.false_ne_true (not_fires_of_value_eq_false hb)

/-- An action is applicable when at every designated world some designated event fires. -/
theorem tells_isApplicable (hact : t.action? a = some action) :
    Tells (isApplicable (t := t) arena state a).value
      (∀ w ∈ state.designated, ∃ e ∈ action.designated, t.Fires arena state w a e) := by
  unfold isApplicable
  rw [hact]
  dsimp only
  rw [value_allM]
  refine Tells.allM fun w _ => ?_
  rw [value_anyM]
  exact Tells.anyM fun e _ => tells_fires

end Updating

namespace Update

/-- Some designated world of `next'` was made of `w`. -/
def Continued (next' : State) (arena' : Arena) (w : WorldId) : Prop :=
  ∃ v ∈ next'.designated, arena'.parentOf v = some w

/-- The designated worlds of an update are made of those designated worlds at which a designated
event fires. -/
theorem continued_iff (hact : t.action? a = some action) (hstate : state.WellFormed)
    (harena : ∀ w ∈ state.possible, arena.contains w = true)
    (h : (apply (t := t) arena state a).value = (.ok (some next'), arena')) :
    Continued next' arena' w ↔
      w ∈ state.designated ∧ ∃ e ∈ action.designated, t.Fires arena state w a e := by
  have hproduct := isProduct_of_value hact hstate.nodup harena h
  have hparent : ∀ i p, (firing t arena state action a)[i]? = some p →
      arena'.parentOf ⟨arena.worlds.size + i⟩ = some p.1 := by
    intro i p hp
    obtain ⟨e, hincoming, _, hparent, _⟩ := hproduct.provenance i p hp
    rw [Arena.parentOf, hincoming, Option.map_some, hparent]
  constructor
  · rintro ⟨v, hv, hvw⟩
    obtain ⟨i, p, hp, rfl, hw, he⟩ := (hproduct.designated v).1 hv
    obtain rfl : p.1 = w := Option.some.inj ((hparent i p hp).symm.trans hvw)
    exact ⟨hw, p.2, he, (mem_firing.1 (List.mem_of_getElem? hp)).2.2⟩
  · rintro ⟨hw, e, he, hfires⟩
    have hmem : (w, e) ∈ firing t arena state action a :=
      mem_firing.2 ⟨hstate.designated_possible w hw, mem_eventIds_of_fires hact hfires, hfires⟩
    obtain ⟨i, hi⟩ := List.mem_iff_getElem?.1 hmem
    exact ⟨_, (hproduct.designated _).2 ⟨i, (w, e), hi, rfl, hw, he⟩, hparent i _ hi⟩

/-- With a designated world to start from, the update of an applicable action has a result. -/
theorem exists_next_of_applicable (hact : t.action? a = some action) (hstate : state.WellFormed)
    (hdes : ∃ w, w ∈ state.designated)
    (happ : (Updating.isApplicable (t := t) arena state a).value = .ok true)
    {result : Option State}
    (h : (apply (t := t) arena state a).value = (.ok result, arena')) :
    ∃ next', result = some next' := by
  cases result with
  | some next' => exact ⟨next', rfl⟩
  | none =>
    have hnone := ((value_apply_none_iff hact hstate).1 (congrArg Prod.fst h)).2
    obtain ⟨w, hw⟩ := hdes
    obtain ⟨e, he, hfires⟩ := (Updating.tells_isApplicable hact true happ).1 rfl w hw
    exact absurd ⟨w, hw, e, he, hfires⟩ hnone

/-- An action is applicable when its update has a result that continues every designated world. -/
theorem applicable_iff_continued (hact : t.action? a = some action) (hstate : state.WellFormed)
    (harena : ∀ w ∈ state.possible, arena.contains w = true) (hdes : ∃ w, w ∈ state.designated)
    {b : Bool} (happ : (Updating.isApplicable (t := t) arena state a).value = .ok b)
    {result : Option State}
    (h : (apply (t := t) arena state a).value = (.ok result, arena')) :
    b = true ↔
      ∃ next', result = some next' ∧ ∀ w ∈ state.designated, Continued next' arena' w := by
  have htells := Updating.tells_isApplicable hact b happ
  constructor
  · rintro rfl
    obtain ⟨next', rfl⟩ := exists_next_of_applicable hact hstate hdes happ h
    exact ⟨next', rfl, fun w hw =>
      (continued_iff hact hstate harena h).2 ⟨hw, htells.1 rfl w hw⟩⟩
  · rintro ⟨next', rfl, hall⟩
    exact htells.2 fun w hw => ((continued_iff hact hstate harena h).1 (hall w hw)).2

end Update

end EpistemicPlanning
