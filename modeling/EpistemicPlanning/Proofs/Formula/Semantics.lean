import EpistemicPlanning.Proofs.Formula.Totality
import EpistemicPlanning.Proofs.Lever

/-!
# Kripke semantics

`Formula.Holds` says when a formula is true at a world: an agent knows what is true at every world
that chains of its links lead to. Whatever evaluation answers is this truth
(`Formula.tells_evaluate`), and it fails only over an agent of the formula that has no relation
(`Formula.failsOnly_evaluate`). Stopping as soon as the truth is decided can hide such an agent, but
it cannot change an answer.
-/
namespace EpistemicPlanning

open Relation Fallible

/-- The truth of a formula at a world of an arena, when links lead from each world to those that an
agent cannot tell apart from it. -/
def Formula.Holds (arena : Arena) (relation : Accessibility .world) : Formula → WorldId → Prop
  | .top, _ => True
  | .bottom, _ => False
  | .atom p, w => (arena.world w).valuation.holds p = true
  | .not f, w => ¬f.Holds arena relation w
  | .and f g, w => f.Holds arena relation w ∧ g.Holds arena relation w
  | .or f g, w => f.Holds arena relation w ∨ g.Holds arena relation w
  | .implies f g, w => f.Holds arena relation w → g.Holds arena relation w
  | .all fs, w => ∀ f, (_ : f ∈ fs) → f.Holds arena relation w
  | .any fs, w => ∃ f, ∃ _ : f ∈ fs, f.Holds arena relation w
  | .knows a f, w => ∀ v, ReflTransGen (relation.Adjacent a) w v → f.Holds arena relation v

/-- Not finding one of some agents, which the relation indeed lacks. -/
def Accessibility.Lacks {kind : HandleKind} (r : Accessibility kind) (agents : SortedSet Agent)
    (e : ModelError) : Prop :=
  ∃ a ∈ agents, r.hasAgent a = false ∧ e = .agentNotFound a

theorem Accessibility.failsOnly_accessible {kind : HandleKind} {r : Accessibility kind} {a : Agent}
    {agents : SortedSet Agent} (ha : a ∈ agents) (n : Handle kind) :
    FailsOnly (r.Lacks agents) (r.accessible a n) := by
  intro e he
  cases hagent : r.hasAgent a with
  | true => exact absurd he ((succeeds_accessible hagent n).ne_error e)
  | false =>
    rw [accessible, reach_eq_error hagent] at he
    exact ⟨a, ha, hagent, (Except.error.inj he).symm⟩

section

variable {arena : Arena} {state : State}

mutual

/-- Whatever evaluation answers is the truth. -/
theorem Formula.tells_evaluate (f : Formula) (w : WorldId) :
    Tells (f.evaluate arena state w) (f.Holds arena state.relation w) := by
  match f with
  | .top =>
    rw [evaluate, Holds]
    exact (tells_ok true).congr (by simp)
  | .bottom =>
    rw [evaluate, Holds]
    exact (tells_ok false).congr (by simp)
  | .atom p =>
    rw [evaluate, Holds]
    exact tells_ok _
  | .not f =>
    rw [evaluate, Holds]
    exact (f.tells_evaluate w).not
  | .and f g =>
    rw [evaluate, Holds]
    exact ((f.tells_evaluate w).ite (g.tells_evaluate w) (tells_ok false)).congr (by simp; tauto)
  | .or f g =>
    rw [evaluate, Holds]
    exact ((f.tells_evaluate w).ite (tells_ok true) (g.tells_evaluate w)).congr (by simp; tauto)
  | .implies f g =>
    rw [evaluate, Holds]
    exact ((f.tells_evaluate w).ite (g.tells_evaluate w) (tells_ok true)).congr (by simp)
  | .all fs =>
    rw [evaluate, Holds]
    exact Formula.tells_evaluateAll fs w
  | .any fs =>
    rw [evaluate, Holds]
    exact (Formula.tells_evaluateAny fs w).congr (by simp)
  | .knows a f =>
    rw [evaluate, Holds]
    intro b hb
    obtain ⟨near, hnear, hb⟩ := bind_eq_ok hb
    rw [Tells.allM (fun v _ => f.tells_evaluate v) b hb]
    -- the worlds that are walked over are those that chains of links lead to
    exact forall_congr' fun v => imp_congr_left (Accessibility.mem_of_accessible hnear)

theorem Formula.tells_evaluateAll (fs : List Formula) (w : WorldId) :
    Tells (Formula.evaluateAll arena state fs w) (∀ f ∈ fs, f.Holds arena state.relation w) := by
  match fs with
  | [] =>
    rw [evaluateAll]
    exact (tells_ok true).congr (by simp)
  | f :: fs =>
    rw [evaluateAll, List.forall_mem_cons]
    exact ((f.tells_evaluate w).ite (Formula.tells_evaluateAll fs w) (tells_ok false)).congr
      (by simp; tauto)

theorem Formula.tells_evaluateAny (fs : List Formula) (w : WorldId) :
    Tells (Formula.evaluateAny arena state fs w) (∃ f ∈ fs, f.Holds arena state.relation w) := by
  match fs with
  | [] =>
    rw [evaluateAny]
    exact (tells_ok false).congr (by simp)
  | f :: fs =>
    rw [evaluateAny, List.exists_mem_cons_iff]
    exact ((f.tells_evaluate w).ite (tells_ok true) (Formula.tells_evaluateAny fs w)).congr
      (by simp; tauto)

end

mutual

/-- Evaluation fails only over an agent of the formula that has no relation. -/
theorem Formula.failsOnly_evaluate (f : Formula) {agents : SortedSet Agent}
    (h : ∀ a ∈ f.agents, a ∈ agents) (w : WorldId) :
    FailsOnly (state.relation.Lacks agents) (f.evaluate arena state w) := by
  match f with
  | .top =>
    rw [evaluate]
    exact failsOnly_ok true
  | .bottom =>
    rw [evaluate]
    exact failsOnly_ok false
  | .atom p =>
    rw [evaluate]
    exact failsOnly_ok _
  | .not f =>
    rw [Formula.agents] at h
    rw [evaluate]
    exact (f.failsOnly_evaluate h w).map _
  | .and f g =>
    simp only [Formula.agents, SortedSet.mem_union, or_imp, forall_and] at h
    rw [evaluate]
    exact (f.failsOnly_evaluate h.1 w).ite (g.failsOnly_evaluate h.2 w) (failsOnly_ok false)
  | .or f g =>
    simp only [Formula.agents, SortedSet.mem_union, or_imp, forall_and] at h
    rw [evaluate]
    exact (f.failsOnly_evaluate h.1 w).ite (failsOnly_ok true) (g.failsOnly_evaluate h.2 w)
  | .implies f g =>
    simp only [Formula.agents, SortedSet.mem_union, or_imp, forall_and] at h
    rw [evaluate]
    exact (f.failsOnly_evaluate h.1 w).ite (g.failsOnly_evaluate h.2 w) (failsOnly_ok true)
  | .all fs =>
    rw [Formula.agents] at h
    rw [evaluate]
    exact Formula.failsOnly_evaluateAll fs h w
  | .any fs =>
    rw [Formula.agents] at h
    rw [evaluate]
    exact Formula.failsOnly_evaluateAny fs h w
  | .knows a f =>
    simp only [Formula.agents, SortedSet.mem_insert, forall_eq_or_imp] at h
    rw [evaluate]
    exact (Accessibility.failsOnly_accessible h.1 w).bind fun near _ =>
      FailsOnly.allM fun v _ => f.failsOnly_evaluate h.2 v

theorem Formula.failsOnly_evaluateAll (fs : List Formula) {agents : SortedSet Agent}
    (h : ∀ a ∈ agentsOfList fs, a ∈ agents) (w : WorldId) :
    FailsOnly (state.relation.Lacks agents) (Formula.evaluateAll arena state fs w) := by
  match fs with
  | [] =>
    rw [evaluateAll]
    exact failsOnly_ok true
  | f :: fs =>
    simp only [agentsOfList, SortedSet.mem_union, or_imp, forall_and] at h
    rw [evaluateAll]
    exact (f.failsOnly_evaluate h.1 w).ite (Formula.failsOnly_evaluateAll fs h.2 w)
      (failsOnly_ok false)

theorem Formula.failsOnly_evaluateAny (fs : List Formula) {agents : SortedSet Agent}
    (h : ∀ a ∈ agentsOfList fs, a ∈ agents) (w : WorldId) :
    FailsOnly (state.relation.Lacks agents) (Formula.evaluateAny arena state fs w) := by
  match fs with
  | [] =>
    rw [evaluateAny]
    exact failsOnly_ok false
  | f :: fs =>
    simp only [agentsOfList, SortedSet.mem_union, or_imp, forall_and] at h
    rw [evaluateAny]
    exact (f.failsOnly_evaluate h.1 w).ite (failsOnly_ok true)
      (Formula.failsOnly_evaluateAny fs h.2 w)

end

/-! ### What evaluation comes to -/

/-- What comes of evaluating a formula at a world of a state: its truth, or the failure to find one
of its agents. -/
structure Formula.EvaluatedAt (f : Formula) (arena : Arena) (state : State) (w : WorldId) :
    Prop where
  /-- When all agents of the formula have relations, evaluation tells whether it is true. -/
  truth : (∀ a ∈ f.agents, state.relation.hasAgent a = true) →
    ∃ b, f.evaluate arena state w = .ok b ∧ (b = true ↔ f.Holds arena state.relation w)
  /-- An answer is right even when some agent has no relation. -/
  answer : ∀ b, f.evaluate arena state w = .ok b → (b = true ↔ f.Holds arena state.relation w)
  failure : ∀ e, f.evaluate arena state w = .error e → state.relation.Lacks f.agents e
  /-- It matters neither which worlds are designated nor which links are cut. -/
  unpointed : ∀ designated cuts,
    f.evaluate arena ⟨state.possible, designated, { state.relation with cuts }⟩ w =
      f.evaluate arena state w
  /-- Nothing is looked up outside of the arena. -/
  inside : ∀ arena', (∀ v, arena.contains v = true → arena'.world v = arena.world v) →
    f.evaluate arena' state w = f.evaluate arena state w

/-- At the worlds of a well-formed state, evaluation follows the semantics. -/
theorem Formula.evaluate_follows_semantics {w : WorldId} (hstate : state.WellFormed)
    (harena : ∀ v ∈ state.possible, arena.contains v = true) (hw : w ∈ state.possible)
    (f : Formula) : f.EvaluatedAt arena state w where
  truth h := by
    obtain ⟨b, hb⟩ : Fallible.Succeeds (f.evaluate arena state w) := f.succeeds_evaluate h w
    exact ⟨b, hb, f.tells_evaluate w b hb⟩
  answer b hb := f.tells_evaluate w b hb
  failure e he := f.failsOnly_evaluate (fun _ ha => ha) w e he
  unpointed designated cuts := by
    let state' : State := ⟨state.possible, designated, { state.relation with cuts }⟩
    have hlinks : state.relation.links = state'.relation.links := rfl
    exact (hstate.evaluate_congr hlinks (fun _ _ => rfl) f hw).symm
  inside arena' h := by
    refine hstate.evaluate_congr rfl (fun v hv => ?_) f hw
    rw [h v (harena v hv)]

end

namespace Lever

/-- The left agent knows that the lever is not at the left end, and the right one does not know that
the left one knows it. -/
def discreet : Formula :=
  .and (.knows left (.not (.atom (position 0))))
    (.not (.knows right (.knows left (.not (.atom (position 0))))))

/-- In the middle, this is so. -/
theorem discreet_holds : discreet.EvaluatedAt arena initial (world 1) ∧
    discreet.Holds arena initial.relation (world 1) := by
  have heval := Formula.evaluate_follows_semantics accepted.wellFormed accepted.inArena
    (w := world 1) (by decide) discreet
  have htrue : discreet.evaluate arena initial (world 1) = .ok true := by decide +kernel
  exact ⟨heval, (heval.answer true htrue).1 rfl⟩

-- an agent without a relation is noticed only where its knowledge matters
example : (Formula.knows ⟨"ghost"⟩ .top).evaluate arena initial (world 1) =
      .error (.agentNotFound ⟨"ghost"⟩) ∧
    (Formula.or .top (.knows ⟨"ghost"⟩ .top)).evaluate arena initial (world 1) = .ok true := by
  decide +kernel

end Lever

end EpistemicPlanning
