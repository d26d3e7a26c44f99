import EpistemicPlanning.Proofs.Formula.Locality

/-!
# When truth can be told

The truth of a formula fails to be told only where the formula speaks of an agent without a relation
(`Formula.succeeds_evaluate`). In the same way, an agent of the relation has a perspective.
-/
namespace EpistemicPlanning

open Fallible

variable {kind : HandleKind} {a : Agent}

theorem Accessibility.succeeds_accessible {r : Accessibility kind} (h : r.hasAgent a = true)
    (n : Handle kind) : Succeeds (r.accessible a n) := ⟨_, reach_eq_ok h .full⟩

namespace PointedModel

variable {m m' : PointedModel kind}

/-- Models with the same list of agents have relations for the same agents. -/
theorem hasAgent_of_agents (h : m.agents = m'.agents) :
    m.relation.hasAgent a = m'.relation.hasAgent a := by
  rw [Bool.eq_iff_iff, ← Accessibility.mem_agents, ← Accessibility.mem_agents]
  change a ∈ m.agents ↔ a ∈ m'.agents
  rw [h]

theorem succeeds_spread (h : m.relation.hasAgent a = true) (ns : List (Handle kind)) :
    Succeeds (m.spread a ns) := by
  induction ns with
  | nil => exact ⟨∅, rfl⟩
  | cons n ns ih =>
    rw [spread]
    exact (Accessibility.succeeds_accessible h n).bind fun near _ =>
      ih.bind fun others _ => ⟨near ∪ others, rfl⟩

theorem succeeds_perspective (h : m.relation.hasAgent a = true) : Succeeds (m.perspective a) :=
  (succeeds_spread h _).map _

end PointedModel

section

variable {arena : Arena} {state : State}

mutual

/-- The truth of a formula can be told when all its agents have relations. -/
theorem Formula.succeeds_evaluate (f : Formula)
    (h : ∀ a ∈ f.agents, state.relation.hasAgent a = true) (w : WorldId) :
    Succeeds (f.evaluate arena state w) := by
  match f with
  | .top =>
    rw [evaluate]
    exact ⟨true, rfl⟩
  | .bottom =>
    rw [evaluate]
    exact ⟨false, rfl⟩
  | .atom p =>
    rw [evaluate]
    exact ⟨_, rfl⟩
  | .not f =>
    rw [agents] at h
    rw [evaluate]
    exact (f.succeeds_evaluate h w).map _
  | .and f g =>
    simp only [agents, SortedSet.mem_union, or_imp, forall_and] at h
    rw [evaluate]
    exact (f.succeeds_evaluate h.1 w).ite (g.succeeds_evaluate h.2 w) ⟨false, rfl⟩
  | .or f g =>
    simp only [agents, SortedSet.mem_union, or_imp, forall_and] at h
    rw [evaluate]
    exact (f.succeeds_evaluate h.1 w).ite ⟨true, rfl⟩ (g.succeeds_evaluate h.2 w)
  | .implies f g =>
    simp only [agents, SortedSet.mem_union, or_imp, forall_and] at h
    rw [evaluate]
    exact (f.succeeds_evaluate h.1 w).ite (g.succeeds_evaluate h.2 w) ⟨true, rfl⟩
  | .all fs =>
    rw [agents] at h
    rw [evaluate]
    exact Formula.succeeds_evaluateAll fs h w
  | .any fs =>
    rw [agents] at h
    rw [evaluate]
    exact Formula.succeeds_evaluateAny fs h w
  | .knows a f =>
    simp only [agents, SortedSet.mem_insert, forall_eq_or_imp] at h
    rw [evaluate]
    -- only here can evaluation fail, for an agent without a relation
    refine (Accessibility.succeeds_accessible h.1 w).bind fun near _ => ?_
    exact succeeds_allM fun v _ => f.succeeds_evaluate h.2 v

theorem Formula.succeeds_evaluateAll (fs : List Formula)
    (h : ∀ a ∈ agentsOfList fs, state.relation.hasAgent a = true) (w : WorldId) :
    Succeeds (Formula.evaluateAll arena state fs w) := by
  match fs with
  | [] =>
    rw [evaluateAll]
    exact ⟨true, rfl⟩
  | f :: fs =>
    simp only [agentsOfList, SortedSet.mem_union, or_imp, forall_and] at h
    rw [evaluateAll]
    exact (f.succeeds_evaluate h.1 w).ite (Formula.succeeds_evaluateAll fs h.2 w) ⟨false, rfl⟩

theorem Formula.succeeds_evaluateAny (fs : List Formula)
    (h : ∀ a ∈ agentsOfList fs, state.relation.hasAgent a = true) (w : WorldId) :
    Succeeds (Formula.evaluateAny arena state fs w) := by
  match fs with
  | [] =>
    rw [evaluateAny]
    exact ⟨false, rfl⟩
  | f :: fs =>
    simp only [agentsOfList, SortedSet.mem_union, or_imp, forall_and] at h
    rw [evaluateAny]
    exact (f.succeeds_evaluate h.1 w).ite ⟨true, rfl⟩ (Formula.succeeds_evaluateAny fs h.2 w)

end

theorem PointedModel.succeeds_worldsSatisfying {f : Formula}
    (h : ∀ a ∈ f.agents, state.relation.hasAgent a = true) :
    Succeeds (state.worldsSatisfying arena f) :=
  succeeds_filterM fun w _ => f.succeeds_evaluate h w

end

end EpistemicPlanning
