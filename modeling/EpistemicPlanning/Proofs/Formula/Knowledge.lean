import EpistemicPlanning.Proofs.Formula.Semantics
import EpistemicPlanning.Proofs.Plan.Failures

/-!
# Laws of knowledge

What an agent cannot tell apart is joined by chains of links, in either direction and of any length,
so an agent knows the same at all nodes that it cannot tell apart (`Formula.holds_knows_congr`).
From this, knowledge obeys the laws of S5, as evaluation tells it (`State.ObeysS5`): what is known
is true and closed under known implications, and an agent knows what it knows and what it does not.
This is so in every state and in all states that planning meets from there
(`State.knowledge_obeys_s5`).
-/
namespace EpistemicPlanning

open Relation Fallible

/-! ### Truth -/

namespace Formula

variable {arena : Arena} {relation : Accessibility .world} {state : State} {f g : Formula}
variable {a : Agent} {w v : WorldId}

theorem Holds.of_knows (h : (knows a f).Holds arena relation w) : f.Holds arena relation w := by
  rw [Holds] at h
  exact h w .refl

theorem Holds.knows_mp (h : (knows a (implies f g)).Holds arena relation w)
    (hf : (knows a f).Holds arena relation w) : (knows a g).Holds arena relation w := by
  simp only [Holds] at h hf ⊢
  exact fun v hv => h v hv (hf v hv)

/-- An agent knows the same at worlds that it cannot tell apart. -/
theorem holds_knows_congr (hjoin : ReflTransGen (relation.Adjacent a) w v) :
    (knows a f).Holds arena relation w ↔ (knows a f).Holds arena relation v := by
  simp only [Holds]
  constructor
  · exact fun h u hu => h u (hjoin.trans hu)
  · exact fun h u hu => h u ((Accessibility.joined_symm hjoin).trans hu)

theorem Holds.knows_knows (h : (knows a f).Holds arena relation w) :
    (knows a (knows a f)).Holds arena relation w := by
  rw [Holds]
  exact fun v hv => (holds_knows_congr hv).1 h

theorem holds_knows_not_knows (h : ¬(knows a f).Holds arena relation w) :
    (knows a (not (knows a f))).Holds arena relation w := by
  rw [Holds]
  intro v hv
  rw [Holds]
  exact fun hknown => h ((holds_knows_congr hv).2 hknown)

/-! ### Evaluation -/

/-- The formula speaks of the knowledge of agents of the relation only. -/
def Over (f : Formula) (relation : Accessibility .world) : Prop :=
  ∀ a ∈ f.agents, relation.hasAgent a = true

theorem Over.not (h : f.Over relation) : (Formula.not f).Over relation := h

theorem Over.implies (hf : f.Over relation) (hg : g.Over relation) :
    (Formula.implies f g).Over relation := by
  intro a ha
  rw [agents, SortedSet.mem_union] at ha
  exact ha.elim (hf a) (hg a)

theorem Over.knows (ha : relation.hasAgent a = true) (hf : f.Over relation) :
    (Formula.knows a f).Over relation := by
  intro b hb
  rw [agents, SortedSet.mem_insert] at hb
  exact hb.elim (fun heq => heq ▸ ha) (hf b)

theorem evaluate_eq_true_iff (hf : f.Over state.relation) :
    f.evaluate arena state w = .ok true ↔ f.Holds arena state.relation w := by
  obtain ⟨b, hb⟩ := f.succeeds_evaluate hf w
  rw [← f.tells_evaluate w b hb, hb, Except.ok.injEq]

theorem evaluate_eq_false_iff (hf : f.Over state.relation) :
    f.evaluate arena state w = .ok false ↔ ¬f.Holds arena state.relation w := by
  obtain ⟨b, hb⟩ := f.succeeds_evaluate hf w
  rw [← f.tells_evaluate w b hb, hb, Except.ok.injEq, Bool.not_eq_true]

end Formula

namespace State

variable {arena : Arena} {state : State} {a : Agent} {w : WorldId}

/-- What evaluation tells of the knowledge of an agent at a world obeys the laws of S5. -/
structure ObeysS5 (state : State) (arena : Arena) (a : Agent) (w : WorldId) : Prop where
  /-- It is told of every formula whether the agent knows it. -/
  decided : ∀ f : Formula, f.Over state.relation →
    ∃ b, (Formula.knows a f).evaluate arena state w = .ok b
  /-- What the agent knows is true. -/
  truth : ∀ f : Formula, f.Over state.relation →
    (Formula.knows a f).evaluate arena state w = .ok true → f.evaluate arena state w = .ok true
  /-- The agent knows what follows by an implication that it knows from something that it knows. -/
  distribution : ∀ f g : Formula, f.Over state.relation → g.Over state.relation →
    (Formula.knows a (.implies f g)).evaluate arena state w = .ok true →
    (Formula.knows a f).evaluate arena state w = .ok true →
    (Formula.knows a g).evaluate arena state w = .ok true
  /-- The agent knows that it knows what it knows. -/
  positive : ∀ f : Formula, f.Over state.relation →
    (Formula.knows a f).evaluate arena state w = .ok true →
    (Formula.knows a (.knows a f)).evaluate arena state w = .ok true
  /-- The agent knows that it does not know what it does not know. -/
  negative : ∀ f : Formula, f.Over state.relation →
    (Formula.knows a f).evaluate arena state w = .ok false →
    (Formula.knows a (.not (.knows a f))).evaluate arena state w = .ok true

/-- In every state, well formed or not, the agents of its relation know by the laws of S5. -/
theorem obeysS5 (ha : state.relation.hasAgent a = true) : state.ObeysS5 arena a w where
  decided f hf := (Formula.knows a f).succeeds_evaluate (hf.knows ha) w
  truth f hf h := by
    rw [Formula.evaluate_eq_true_iff (hf.knows ha)] at h
    exact (Formula.evaluate_eq_true_iff hf).2 h.of_knows
  distribution f g hf hg h hknown := by
    rw [Formula.evaluate_eq_true_iff ((hf.implies hg).knows ha)] at h
    rw [Formula.evaluate_eq_true_iff (hf.knows ha)] at hknown
    exact (Formula.evaluate_eq_true_iff (hg.knows ha)).2 (h.knows_mp hknown)
  positive f hf h := by
    rw [Formula.evaluate_eq_true_iff (hf.knows ha)] at h
    exact (Formula.evaluate_eq_true_iff ((hf.knows ha).knows ha)).2 h.knows_knows
  negative f hf h := by
    rw [Formula.evaluate_eq_false_iff (hf.knows ha)] at h
    exact (Formula.evaluate_eq_true_iff ((hf.knows ha).not.knows ha)).2
      (Formula.holds_knows_not_knows h)

end State

/-! ### States that planning meets -/

namespace PlanningTask

variable {t : PlanningTask} {p : Planner} {arena : Arena} {state : State}

/-- The states that planning meets, each with the arena in which its formulas are evaluated: those
of nodes, on the way and in the plan, how agents see them, and what updates make of them, whatever
has been remembered of dynamic events. -/
inductive Meets (t : PlanningTask) (p : Planner) : Arena → State → Prop
  | visited {r : Run} {n : NodeId} (hr : r.Visited t p.config) (hn : n.index < r.tree.size) :
      Meets t p r.tree.arena (r.tree.node n).state
  | planned {g : SearchTree} {n : NodeId} (h : p.plan t = .ok g) (hn : n.index < g.size) :
      Meets t p g.arena (g.node n).state
  | seen {arena : Arena} {state seen : State} {a : Agent} (h : Meets t p arena state)
      (hseen : state.perspective a = .ok seen) : Meets t p arena seen
  | updated {arena arena' : Arena} {state next' : State} {a : ActionId} {m : Memo t.outcome}
      (h : Meets t p arena state)
      (hupdate : ((Update.apply arena state a).run m).1 = (.ok (some next'), arena')) :
      Meets t p arena' next'

/-- All states that planning meets are well formed and have the agents of the initial one. -/
theorem Meets.keeps (hacc : t.Accepted) (h : t.Meets p arena state) :
    state.WellFormed ∧ state.agents = t.initial.agents := by
  have hsound : ∀ {g : SearchTree} {n : NodeId}, g.Sound t → n.index < g.size →
      (g.node n).state.WellFormed ∧ (g.node n).state.agents = t.initial.agents :=
    fun hs hn => ⟨hs.state _ hn, hs.agents _ hn⟩
  induction h with
  | visited hr hn => exact hsound (hr.sound hacc) hn
  | planned hplan hn =>
    obtain ⟨r, hmade⟩ := Planner.plan_of_run hplan
    obtain ⟨r₀, hstart, hround⟩ := hmade.round
    have hs := (Run.Reachable.settled hstart hround).sound hacc
    exact hsound (hs.of_sameShape hmade.sameCosts.toSameShape.symm) hn
  | seen _ hseen ih => exact ⟨ih.1.perspective hseen,
      (PointedModel.agents_of_perspective hseen).trans ih.2⟩
  | updated _ hupdate ih =>
    rw [Consult.run_fst_eq_value] at hupdate
    refine ⟨Update.wellFormed_of_apply hupdate, ?_⟩
    obtain ⟨action, hact⟩ := Update.exists_action_of_value hupdate
    obtain ⟨cs, _, _, rfl, _⟩ := Update.value_apply_eq_some hact hupdate
    exact Update.agents_next.trans ih.2

end PlanningTask

namespace State

/-- Knowledge obeys the laws of S5 in a state and in the states that planning meets from there. -/
structure KnowsByS5 (state : State) : Prop where
  here : ∀ (arena : Arena) (a : Agent) (w : WorldId), state.relation.hasAgent a = true →
    state.ObeysS5 arena a w
  /-- When a task begins with the state, every state that planning meets has the same agents, and
  the laws hold at each of its worlds. -/
  met : ∀ (t : PlanningTask) (p : Planner) (arena : Arena) (state' : State), t.Accepted →
    t.initial = state → t.Meets p arena state' →
    (∀ a, state'.relation.hasAgent a = state.relation.hasAgent a) ∧
      ∀ a, state.relation.hasAgent a = true → ∀ w ∈ state'.possible, state'.ObeysS5 arena a w

/-- Knowledge obeys the laws of S5, wherever planning leads. -/
theorem knowledge_obeys_s5 (state : State) : state.KnowsByS5 where
  here _ _ _ ha := obeysS5 ha
  met t p arena state' hacc hinitial hmet := by
    obtain ⟨_, hagents⟩ := hmet.keeps hacc
    rw [hinitial] at hagents
    have hsame : ∀ a, state'.relation.hasAgent a = state.relation.hasAgent a := fun a =>
      PointedModel.hasAgent_of_agents hagents
    exact ⟨hsame, fun a ha w _ => obeysS5 ((hsame a).trans ha)⟩

end State

namespace Lever

/-- The lever is not in the given position. -/
def off (i : Nat) : Formula := .not (.atom (position i))

/-- In the middle, the left agent knows that the lever is not at the left end, and knows that it
knows. It does not know that it is not at the right end, and knows that it does not know. When it
has pulled, in the next node of the plan, it knows that the lever has left the middle, and knows
that it knows. -/
theorem left_introspects :
    (Formula.knows left (.knows left (off 0))).evaluate arena initial (world 1) = .ok true ∧
    (Formula.knows left (.not (.knows left (off 2)))).evaluate arena initial (world 1) = .ok true ∧
    (Formula.knows left (.knows left (off 1))).evaluate plan.arena (plan.node ⟨1⟩).state
      (world 4) = .ok true := by
  have hlaws := State.knowledge_obeys_s5 initial
  have hhere := hlaws.here arena left (world 1) (by decide)
  have hover : ∀ i (relation : Accessibility .world), (off i).Over relation :=
    fun i relation a ha => nomatch ha
  obtain ⟨_, hmet⟩ := hlaws.met task planner plan.arena (plan.node ⟨1⟩).state accepted rfl
    (.planned plan_eq (by decide +kernel))
  have hthere := hmet left (by decide) (world 4) (by decide +kernel)
  exact ⟨hhere.positive _ (hover 0 _) (by decide +kernel),
    hhere.negative _ (hover 2 _) (by decide +kernel),
    hthere.positive _ (hover 1 _) (by decide +kernel)⟩

end Lever

end EpistemicPlanning
