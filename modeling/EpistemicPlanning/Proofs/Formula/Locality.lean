import EpistemicPlanning.Formula.Truth
import EpistemicPlanning.Proofs.PointedModel

/-!
# What the truth of a formula depends on

Truth at a world depends on the valuations of the worlds that chains of links lead to, and on the
links. It depends neither on the designated worlds nor on cuts, and worlds that are added to the
arena later do not change it.
-/
namespace EpistemicPlanning

/-- Two states agree on a set of worlds, which no chain of links leaves. -/
structure AgreeOn (P : WorldId → Prop) (arena : Arena) (state : State) (arena' : Arena)
    (state' : State) : Prop where
  valuation : ∀ w, P w → (arena.world w).valuation = (arena'.world w).valuation
  accessible : ∀ a w, P w → state.relation.accessible a w = state'.relation.accessible a w
  closed : ∀ a w, P w → ∀ ws, state.relation.accessible a w = .ok ws → ∀ v ∈ ws, P v

section

variable {arena arena' : Arena} {state state' : State} {P : WorldId → Prop}

mutual

/-- Where two states agree, a formula has the same truth in both. -/
theorem Formula.evaluate_congr (h : AgreeOn P arena state arena' state') (f : Formula)
    {w : WorldId} (hw : P w) : f.evaluate arena state w = f.evaluate arena' state' w := by
  match f with
  | .top => simp only [evaluate]
  | .bottom => simp only [evaluate]
  | .atom p => simp only [evaluate, h.valuation w hw]
  | .not f => simp only [evaluate, f.evaluate_congr h hw]
  | .and f g => simp only [evaluate, f.evaluate_congr h hw, g.evaluate_congr h hw]
  | .or f g => simp only [evaluate, f.evaluate_congr h hw, g.evaluate_congr h hw]
  | .implies f g => simp only [evaluate, f.evaluate_congr h hw, g.evaluate_congr h hw]
  | .all fs => simp only [evaluate, Formula.evaluateAll_congr h fs hw]
  | .any fs => simp only [evaluate, Formula.evaluateAny_congr h fs hw]
  | .knows a f =>
    simp only [evaluate, ← h.accessible a w hw]
    cases hws : state.relation.accessible a w with
    | error e => rfl
    | ok ws =>
      exact Fallible.allM_congr fun v hv => f.evaluate_congr h (h.closed a w hw ws hws v hv)

theorem Formula.evaluateAll_congr (h : AgreeOn P arena state arena' state') (fs : List Formula)
    {w : WorldId} (hw : P w) :
    Formula.evaluateAll arena state fs w = Formula.evaluateAll arena' state' fs w := by
  match fs with
  | [] => simp only [evaluateAll]
  | f :: fs => simp only [evaluateAll, f.evaluate_congr h hw, Formula.evaluateAll_congr h fs hw]

theorem Formula.evaluateAny_congr (h : AgreeOn P arena state arena' state') (fs : List Formula)
    {w : WorldId} (hw : P w) :
    Formula.evaluateAny arena state fs w = Formula.evaluateAny arena' state' fs w := by
  match fs with
  | [] => simp only [evaluateAny]
  | f :: fs => simp only [evaluateAny, f.evaluate_congr h hw, Formula.evaluateAny_congr h fs hw]

end

end

theorem Accessibility.accessible_congr {kind : HandleKind} {r r' : Accessibility kind}
    (h : r.links = r'.links) (a : Agent) (n : Handle kind) :
    r.accessible a n = r'.accessible a n := by
  unfold accessible reach linksOf walked
  rw [h]

/-- Whatever arena and whatever cuts: states with the same links agree where the valuations of
their worlds do. -/
theorem PointedModel.WellFormed.agreeOn {state state' : State} {arena arena' : Arena}
    (h : state.WellFormed) (hlinks : state.relation.links = state'.relation.links)
    (hval : ∀ w ∈ state.possible, (arena.world w).valuation = (arena'.world w).valuation) :
    AgreeOn (· ∈ state.possible) arena state arena' state' where
  valuation := hval
  accessible a w _ := Accessibility.accessible_congr hlinks a w
  closed _ _ hw _ hws _ hv := h.possible_of_accessible hw hws hv

/-- Truth in a well-formed state is the same in every arena with the same valuations of its
worlds, whichever worlds are designated and whichever links are cut. -/
theorem PointedModel.WellFormed.evaluate_congr {state state' : State} {arena arena' : Arena}
    (h : state.WellFormed) (hlinks : state.relation.links = state'.relation.links)
    (hval : ∀ w ∈ state.possible, (arena.world w).valuation = (arena'.world w).valuation)
    (f : Formula) {w : WorldId} (hw : w ∈ state.possible) :
    f.evaluate arena state w = f.evaluate arena' state' w :=
  Formula.evaluate_congr (h.agreeOn hlinks hval) f hw

end EpistemicPlanning
