import EpistemicPlanning.Proofs.Planning.Deepening

/-!
# Runs under looser limits

Two runs of the planner are compared, the second under limits none of which is lower. Until the goal
has been found they differ in the bound on the depth alone, which is then that of each
configuration; once it has been found, they do not differ at all (`Run.Ahead`). What is compared is
all that a step leaves behind, the memo included (`Planning.trace`).
-/
namespace EpistemicPlanning

open SearchTree

variable {t : PlanningTask} {α β : Type} {c c' : PlannerConfig} {r r' r₁ r₂ r₁' : Run}
variable {h : SearchTree} {n : NodeId} {ns : List NodeId}
variable {d D L levels levels' rounds rounds' : Nat}
variable {action : Action} {a : ActionId} {l : List (Action × ActionId)}
variable {m m₁ : Memo t.outcome}

namespace Planning

/-! ### Traces -/

/-- What a step ends with, the run after it, and what is then remembered. -/
def trace (x : Planning t α) (r : Run) (m : Memo t.outcome) :
    (Except PlanError α × Run) × Memo t.outcome := (x.run.run r).run m

theorem exec_eq_trace (x : Planning t α) (m : Memo t.outcome) : exec x r = (trace x r m).1 :=
  (Consult.run_fst_eq_value _ m).symm

theorem exec_of_trace {x : Planning t α} {result : Except PlanError α}
    (h : trace x r m = ((result, r₁), m₁)) : exec x r = (result, r₁) := by
  rw [exec_eq_trace x m, h]

theorem trace_get : trace (get : Planning t Run) r m = ((.ok r, r), m) := rfl

theorem trace_ofExcept (x : Except ModelError α) :
    trace (ofExcept (t := t) x) r m = ((x.mapError .model, r), m) := rfl

theorem trace_ofUpdating (x : Updating t α) :
    trace (ofUpdating x) r m = (((x.run.run m).1.mapError .model, r), (x.run.run m).2) := rfl

theorem trace_bind (x : Planning t α) (f : α → Planning t β) :
    trace (x >>= f) r m =
      match trace x r m with
      | ((.ok a, r₁), m₁) => trace (f a) r₁ m₁
      | ((.error e, r₁), m₁) => ((.error e, r₁), m₁) := by
  change (match (x.run.run r).run m with
    | (p, m₁) => ((ExceptT.bindCont f p.1).run p.2).run m₁) = _
  unfold trace
  cases (x.run.run r).run m with
  | mk p m₁ =>
    obtain ⟨result, r₁⟩ := p
    cases result <;> rfl

theorem trace_bind_ok {x : Planning t α} {f : α → Planning t β} {b : β}
    (h : trace (x >>= f) r m = ((.ok b, r'), m₁)) :
    ∃ a r₁ m', trace x r m = ((.ok a, r₁), m') ∧ trace (f a) r₁ m' = ((.ok b, r'), m₁) := by
  rw [trace_bind] at h
  cases hx : trace x r m with
  | mk p m' =>
    obtain ⟨result, r₁⟩ := p
    rw [hx] at h
    cases result with
    | error e => cases h
    | ok a => exact ⟨a, r₁, m', rfl, h⟩

theorem trace_bind_of_ok {x : Planning t α} {f : α → Planning t β} {a : α} {m' : Memo t.outcome}
    (h : trace x r m = ((.ok a, r₁), m')) : trace (x >>= f) r m = trace (f a) r₁ m' := by
  rw [trace_bind, h]

/-! ### Simulation of steps -/

/-- What the first step succeeds with, the second does as well, and it leaves the same behind up to
a relation between runs. -/
def Simulates (R : Run → Run → Prop) (r r' : Run) (x y : Planning t α) : Prop :=
  ∀ m a r₁ m₁, trace x r m = ((.ok a, r₁), m₁) →
    ∃ r₁', R r₁ r₁' ∧ trace y r' m = ((.ok a, r₁'), m₁)

variable {R S : Run → Run → Prop} {x y : Planning t α} {f g : α → Planning t β}

theorem Simulates.bind (hx : Simulates R r r' x y)
    (hf : ∀ a r₁ r₁', exec x r = (.ok a, r₁) → R r₁ r₁' → Simulates S r₁ r₁' (f a) (g a)) :
    Simulates S r r' (x >>= f) (y >>= g) := by
  intro m b r₂ m₂ htrace
  obtain ⟨a, r₁, m₁, hfirst, hrest⟩ := trace_bind_ok htrace
  obtain ⟨r₁', hR, hfirst'⟩ := hx m a r₁ m₁ hfirst
  obtain ⟨r₂', hS, hrest'⟩ := hf a r₁ r₁' (exec_of_trace hfirst) hR m₁ b r₂ m₂ hrest
  exact ⟨r₂', hS, (trace_bind_of_ok hfirst').trans hrest'⟩

theorem trace_update {state : State} :
    trace (update (t := t) state a) r m =
      (((((Update.apply (t := t) r.tree.arena state a).run m).1.1.mapError .model,
        r.withArena ((Update.apply (t := t) r.tree.arena state a).run m).1.2)),
        ((Update.apply (t := t) r.tree.arena state a).run m).2) := rfl

end Planning

/-! ### Until the goal is found -/

namespace Run

/-- The second run is where the first is, except that the bound on its depth is another as long as
the goal has not been found. -/
inductive Ahead (D L : Nat) : Run → Run → Prop
  | unseen {r : Run} (hnone : r.goalDepth = none) (hlimit : r.limit = D) :
      Ahead D L r { r with limit := L }
  | seen {r : Run} (hsome : r.goalDepth ≠ none) : Ahead D L r r

namespace Ahead

theorem eq (h : Ahead D L r r') (hsome : r.goalDepth ≠ none) : r' = r := by
  cases h with
  | unseen hnone _ => exact absurd hnone hsome
  | seen _ => rfl

theorem tree (h : Ahead D L r r') : r'.tree = r.tree := by
  cases h with
  | unseen _ _ => rfl
  | seen _ => rfl

theorem frontier (h : Ahead D L r r') : r'.frontier = r.frontier := by
  cases h with
  | unseen _ _ => rfl
  | seen _ => rfl

theorem goalDepth (h : Ahead D L r r') : r'.goalDepth = r.goalDepth := by
  cases h with
  | unseen _ _ => rfl
  | seen _ => rfl

theorem limit_le (h : Ahead D L r r') (hle : D ≤ L) : r.limit ≤ r'.limit := by
  cases h with
  | unseen _ hlimit => exact Nat.le_trans (Nat.le_of_eq hlimit) hle
  | seen _ => exact Nat.le_refl _

/-- Where the first run still has to grow, so has the second. -/
theorem mayGrow (h : Ahead D L r r') (hle : D ≤ L) (hmay : r.mayGrow = true) :
    r'.mayGrow = true := by
  unfold Run.mayGrow at *
  rw [h.frontier, h.tree]
  cases hfrontier : r.frontier with
  | nil =>
    rw [hfrontier] at hmay
    cases hmay
  | cons n ns =>
    rw [hfrontier] at hmay
    exact decide_eq_true (Nat.lt_of_lt_of_le (of_decide_eq_true hmay) (h.limit_le hle))

/-- A change of anything but the bound and the depth of the goal. -/
theorem change (h : Ahead D L r r') {f : Run → Run}
    (hgoal : ∀ r, (f r).goalDepth = r.goalDepth) (hlimit : ∀ r, (f r).limit = r.limit)
    (hbound : ∀ r L, f { r with limit := L } = { f r with limit := L }) :
    Ahead D L (f r) (f r') := by
  cases h with
  | unseen hnone hD =>
    rw [hbound r L]
    exact .unseen ((hgoal r).trans hnone) ((hlimit r).trans hD)
  | seen hsome => exact .seen fun hnone => hsome ((hgoal r).symm.trans hnone)

/-- Both runs lower their bound to a level that is not below the first bound. -/
theorem noteGoal (h : Ahead D L r r') (hnone : r.goalDepth = none) (hd : d ≤ D) (hle : D ≤ L) :
    Ahead D L (r.noteGoal d) (r'.noteGoal d) := by
  cases h with
  | unseen _ hlimit =>
    have hsame : ({ r with limit := L } : Run).noteGoal d = r.noteGoal d := by
      unfold Run.noteGoal
      rw [hlimit, Nat.min_eq_right hd, Nat.min_eq_right (Nat.le_trans hd hle)]
    rw [hsame]
    exact .seen (Option.some_ne_none _)
  | seen hsome => exact absurd hnone hsome

end Ahead

end Run

namespace Planning

open Run

theorem atLevel_of_growLevel (hacc : t.Accepted) (hr : r.AtLevel t d h) (hd : d < r.limit)
    (hexec : exec (growLevel (t := t) c) r = (.ok ⟨⟩, r₁)) :
    (∃ h₁, r₁.AtLevel t (d + 1) h₁) ∧ r₁.limit ≤ r.limit := by
  obtain ⟨hlevel, hnoted, _⟩ := atLevel_of_exec_growLevel hacc hr hd hexec
  exact ⟨hlevel, hnoted.limit_le⟩

/-! ### Rounds -/

theorem trace_growLevels_succ : trace (growLevels (t := t) c (levels + 1)) r m =
    if r.mayGrow = true then trace (growLevel c >>= fun _ => growLevels c levels) r m
    else ((.ok ⟨⟩, r), m) := by
  change trace (if r.mayGrow = true then _ else _) r m = _
  cases r.mayGrow <;> rfl

/-- What is done after a round when so many rounds are left. -/
def proceed (c : PlannerConfig) (rounds : Nat) : Planning t Unit := do
  let run ← get
  if run.rootSettled then return
  if run.frontier.isEmpty then throw (run.unsolvable .provisionalWithoutFrontier)
  if c.maxDepth ≤ run.limit then throw (run.unsolvable .provisionalAtDepthBound)
  set { run with limit := run.limit + 1 }
  deepen c rounds

theorem deepen_succ : deepen (t := t) c (rounds + 1) = round c >>= fun _ => proceed c rounds := by
  rw [deepen, deepenBy, round]
  simp only [bind_assoc]
  rfl

theorem trace_proceed : trace (proceed (t := t) c rounds) r m =
    if r.rootSettled then ((.ok ⟨⟩, r), m)
    else if r.frontier.isEmpty then
      ((.error (r.unsolvable .provisionalWithoutFrontier), r), m)
    else if c.maxDepth ≤ r.limit then
      ((.error (r.unsolvable .provisionalAtDepthBound), r), m)
    else trace (deepen (t := t) c rounds) { r with limit := r.limit + 1 } m := by
  unfold proceed
  rw [trace_bind_of_ok trace_get]
  cases hsettled : r.rootSettled with
  | true => rfl
  | false =>
    cases hempty : r.frontier.isEmpty with
    | true => rfl
    | false =>
      by_cases hlimit : c.maxDepth ≤ r.limit
      · simp only [Bool.false_eq_true, if_false, if_pos hlimit]
        rfl
      · simp only [Bool.false_eq_true, if_false, if_neg hlimit]
        rfl

end Planning

namespace Planning

open Run

end Planning

namespace Planner

open Planning

/-- What a planner makes of the end of its search. -/
def report : (Except PlanError SearchTree × Run) × Memo t.outcome → PlanOutcome
  | ((result, _), memo) =>
    { result := result.map fun tree =>
        { tree with stats := { tree.stats with resolvedEvents := memo.size } }
      resolved := memo.size }

theorem run_eq_report {p : Planner} {memo : Memo t.outcome} {result : Except PlanError SearchTree}
    (h : trace (Planning.tree (t := t) p.config) (.initial t p.config) ∅ = ((result, r), memo)) :
    p.run t = report ((result, r), memo) := by
  rw [← h]
  rfl

end Planner

end EpistemicPlanning
