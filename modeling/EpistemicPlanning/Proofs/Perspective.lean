import EpistemicPlanning.Proofs.Formula.Semantics

/-!
# Perspectives

An agent's perspective designates all nodes that the agent cannot tell apart from a designated one.
On designated nodes this is a closure: nothing is lost, more designated nodes make for more, and
seeing a model twice as the same agent changes nothing (`PointedModel.perspective_idem`). It is dual
to knowledge: what is true in the agent's perspective is what the agent knows
(`State.perspective_is_dual_to_knowledge`).
-/
namespace EpistemicPlanning

open Relation Fallible

variable {kind : HandleKind}

namespace PointedModel

variable {m m' seen seen' : PointedModel kind} {a : Agent} {n : Handle kind}

theorem hasAgent_of_perspective (h : m.perspective a = .ok seen) {b : Agent} :
    seen.relation.hasAgent b = m.relation.hasAgent b := by
  obtain ⟨_, hrelation, _⟩ := perspective_eq_ok h
  rw [hrelation]

theorem mem_designated_of_perspective (ha : m.relation.hasAgent a = true)
    (h : m.perspective a = .ok seen) :
    n ∈ seen.designated ↔
      ∃ n₀ ∈ m.designated, ∃ near, m.relation.accessible a n₀ = .ok near ∧ n ∈ near := by
  obtain ⟨_, _, hdesignated⟩ := perspective_eq_ok h
  rw [hdesignated]
  refine exists_congr fun n₀ => and_congr_right fun _ => ?_
  obtain ⟨near, hnear⟩ := Accessibility.succeeds_accessible ha n₀
  rw [← Accessibility.mem_of_accessible hnear]
  constructor
  · exact fun hn => ⟨near, hnear, hn⟩
  · rintro ⟨near', hnear', hn⟩
    rw [hnear] at hnear'
    cases hnear'
    exact hn

theorem designated_subset_perspective (h : m.perspective a = .ok seen) :
    ∀ n ∈ m.designated, n ∈ seen.designated := by
  obtain ⟨_, _, hdesignated⟩ := perspective_eq_ok h
  exact fun n hn => (hdesignated n).2 ⟨n, hn, .refl⟩

theorem perspective_mono (hrelation : m'.relation = m.relation)
    (hsub : ∀ n ∈ m.designated, n ∈ m'.designated) (h : m.perspective a = .ok seen)
    (h' : m'.perspective a = .ok seen') : ∀ n ∈ seen.designated, n ∈ seen'.designated := by
  obtain ⟨_, _, hdesignated⟩ := perspective_eq_ok h
  obtain ⟨_, _, hdesignated'⟩ := perspective_eq_ok h'
  intro n hn
  obtain ⟨n₀, hn₀, hjoin⟩ := (hdesignated n).1 hn
  exact (hdesignated' n).2 ⟨n₀, hsub n₀ hn₀, hrelation ▸ hjoin⟩

/-- Seen by the same agent once more, a model does not change. -/
theorem perspective_idem (ha : m.relation.hasAgent a = true) (h : m.perspective a = .ok seen) :
    seen.perspective a = .ok seen := by
  obtain ⟨_, hrelation, hdesignated⟩ := perspective_eq_ok h
  obtain ⟨again, hagain⟩ := succeeds_perspective ((hasAgent_of_perspective h).trans ha)
  obtain ⟨hpossible', hrelation', hdesignated'⟩ := perspective_eq_ok hagain
  have hsame : again.designated = seen.designated := by
    refine SortedSet.ext fun n => ⟨fun hn => ?_, designated_subset_perspective hagain n⟩
    -- a chain that goes on from the end of another is one chain
    obtain ⟨n₁, hn₁, hjoin'⟩ := (hdesignated' n).1 hn
    obtain ⟨n₀, hn₀, hjoin⟩ := (hdesignated n₁).1 hn₁
    rw [hrelation] at hjoin'
    exact (hdesignated n).2 ⟨n₀, hn₀, hjoin.trans hjoin'⟩
  rw [hagain]
  obtain ⟨possible, designated, relation⟩ := again
  cases hpossible'
  cases hrelation'
  cases hsame
  rfl

end PointedModel

/-! ### Truth in a perspective -/

namespace State

variable {arena : Arena} {state seen : State} {f : Formula} {a : Agent}

theorem succeeds_satisfies (h : ∀ b ∈ f.agents, state.relation.hasAgent b = true) :
    Succeeds (state.satisfies arena f) :=
  succeeds_allM fun w _ => f.succeeds_evaluate h w

theorem tells_satisfies :
    Tells (state.satisfies arena f) (∀ w ∈ state.designated, f.Holds arena state.relation w) :=
  Tells.allM fun w _ => f.tells_evaluate w

/-- A formula is true at all worlds that an agent's perspective designates when the agent knows it
at all designated worlds. -/
theorem holds_perspective_iff (h : state.perspective a = .ok seen) :
    (∀ v ∈ seen.designated, f.Holds arena seen.relation v) ↔
      ∀ w ∈ state.designated, (Formula.knows a f).Holds arena state.relation w := by
  obtain ⟨_, hrelation, hdesignated⟩ := PointedModel.perspective_eq_ok h
  rw [hrelation]
  simp only [hdesignated, Formula.Holds]
  constructor
  · exact fun hall w hw v hv => hall v ⟨w, hw, hv⟩
  · rintro hall v ⟨w, hw, hv⟩
    exact hall w hw v hv

theorem satisfies_perspective (ha : state.relation.hasAgent a = true)
    (hf : ∀ b ∈ f.agents, state.relation.hasAgent b = true)
    (h : state.perspective a = .ok seen) :
    ∃ b, seen.satisfies arena f = .ok b ∧ state.satisfies arena (.knows a f) = .ok b := by
  have hknows : ∀ b ∈ (Formula.knows a f).agents, state.relation.hasAgent b = true := by
    simp only [Formula.agents, SortedSet.mem_insert, forall_eq_or_imp]
    exact ⟨ha, hf⟩
  have hseen : ∀ b ∈ f.agents, seen.relation.hasAgent b = true := fun b hb =>
    (PointedModel.hasAgent_of_perspective h).trans (hf b hb)
  obtain ⟨b, hb⟩ : Succeeds (seen.satisfies arena f) := succeeds_satisfies hseen
  obtain ⟨c, hc⟩ : Succeeds (state.satisfies arena (.knows a f)) := succeeds_satisfies hknows
  have hbc : b = true ↔ c = true :=
    (tells_satisfies b hb).trans ((holds_perspective_iff h).trans (tells_satisfies c hc).symm)
  rw [← Bool.eq_iff_iff] at hbc
  exact ⟨b, hb, hbc ▸ hc⟩

/-- `seen` is a state as an agent sees it. -/
structure SeenBy (state : State) (a : Agent) (seen : State) : Prop where
  possible : seen.possible = state.possible
  relation : seen.relation = state.relation
  wellFormed : seen.WellFormed
  /-- The designated worlds are those that the agent cannot tell apart from a designated one. -/
  designated : ∀ v, v ∈ seen.designated ↔
    ∃ w ∈ state.designated, ∃ near, state.relation.accessible a w = .ok near ∧ v ∈ near
  extensive : ∀ w ∈ state.designated, w ∈ seen.designated
  idempotent : seen.perspective a = .ok seen
  /-- With more designated worlds, more are designated in the perspective. -/
  monotone : ∀ state' : State, state'.possible = state.possible →
    state'.relation = state.relation → (∀ w ∈ state.designated, w ∈ state'.designated) →
    ∃ seen', state'.perspective a = .ok seen' ∧ ∀ v ∈ seen.designated, v ∈ seen'.designated
  /-- What is true in the perspective is what the agent knows. -/
  dual : ∀ arena f, (∀ b ∈ Formula.agents f, state.relation.hasAgent b = true) →
    ∃ b, seen.satisfies arena f = .ok b ∧ state.satisfies arena (.knows a f) = .ok b

/-- Every agent of a well-formed state has a perspective, which is a closure of the designated
worlds and dual to the knowledge of the agent. -/
theorem perspective_is_dual_to_knowledge (hstate : state.WellFormed)
    (ha : state.relation.hasAgent a = true) :
    ∃ seen, state.perspective a = .ok seen ∧ state.SeenBy a seen := by
  obtain ⟨seen, h⟩ := PointedModel.succeeds_perspective ha
  obtain ⟨hpossible, hrelation, _⟩ := PointedModel.perspective_eq_ok h
  refine ⟨seen, h, hpossible, hrelation, hstate.perspective h,
    fun v => PointedModel.mem_designated_of_perspective ha h,
    PointedModel.designated_subset_perspective h, PointedModel.perspective_idem ha h,
    fun state' _ hrelation' hsub => ?_, fun arena f hf => satisfies_perspective ha hf h⟩
  obtain ⟨seen', h'⟩ := PointedModel.succeeds_perspective (m := state') (hrelation' ▸ ha)
  exact ⟨seen', h', PointedModel.perspective_mono hrelation' hsub h h'⟩

end State

namespace Lever

/-- In the middle, the right agent holds the left end possible, so what it sees is more than what is
so: there the lever is not at the right end, and that is what the agent knows. -/
theorem right_sees : ∃ seen, initial.perspective right = .ok seen ∧ initial.SeenBy right seen ∧
    initial.designated.toList = [world 1] ∧ seen.designated.toList = [world 0, world 1] ∧
    seen.satisfies arena (.not (.atom (position 2))) = .ok true ∧
    initial.satisfies arena (.knows right (.not (.atom (position 2)))) = .ok true := by
  obtain ⟨seen, hseen, hby⟩ :=
    State.perspective_is_dual_to_knowledge (a := right) accepted.wellFormed (by decide)
  obtain rfl : seen = Fallible.get (initial.perspective right) (by decide) :=
    Except.ok.inj (hseen.symm.trans (Fallible.eq_ok_get _ _))
  exact ⟨_, hseen, hby, by decide, by decide +kernel, by decide +kernel, by decide +kernel⟩

end Lever

end EpistemicPlanning
