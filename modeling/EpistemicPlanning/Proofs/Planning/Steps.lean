import EpistemicPlanning.Planning.Deepening
import EpistemicPlanning.Proofs.Update.Candidates

/-!
# Steps of a planning run

What a step of a planning run does to the run, with the memo left out (`Planning.exec`), and what
the success of a compound step says about its parts. A planner tries the actions at a node one
after the other; `Run.Attempt` lists what such an attempt can do.
-/
namespace EpistemicPlanning

variable {t : PlanningTask} {α β : Type} {r r' : Run}

/-- The run with another arena. -/
def Run.withArena (r : Run) (arena : Arena) : Run := { r with tree := { r.tree with arena } }

namespace Planning

/-- What a step ends with, and the run after it. -/
def exec (x : Planning t α) (r : Run) : Except PlanError α × Run := (x.run.run r).value

theorem exec_eq_of_ok {x : Planning t PUnit} (h : (exec x r).1 = .ok ⟨⟩) :
    exec x r = (.ok ⟨⟩, (exec x r).2) := Prod.ext h rfl

theorem exec_bind (x : Planning t α) (f : α → Planning t β) :
    exec (x >>= f) r =
      match exec x r with
      | (.ok a, r') => exec (f a) r'
      | (.error e, r') => (.error e, r') := by
  unfold exec
  rw [ExceptT.run_bind, StateT.run_bind, Consult.value_bind]
  cases (x.run.run r).value with
  | mk result r' => cases result <;> rfl

theorem exec_bind_ok {x : Planning t α} {f : α → Planning t β} {b : β}
    (h : exec (x >>= f) r = (.ok b, r')) :
    ∃ a r₁, exec x r = (.ok a, r₁) ∧ exec (f a) r₁ = (.ok b, r') := by
  rw [exec_bind] at h
  cases hx : exec x r with
  | mk result r₁ =>
    rw [hx] at h
    cases result with
    | error e => cases h
    | ok a => exact ⟨a, r₁, rfl, h⟩

theorem exec_get : exec (get : Planning t Run) r = (.ok r, r) := rfl

theorem exec_set : exec (set r' : Planning t PUnit) r = (.ok ⟨⟩, r') := rfl

theorem exec_modify (f : Run → Run) : exec (modify f : Planning t PUnit) r = (.ok ⟨⟩, f r) := rfl

theorem exec_throw (e : PlanError) : exec (throw e : Planning t α) r = (.error e, r) := rfl

theorem exec_ofExcept (x : Except ModelError α) :
    exec (ofExcept (t := t) x) r = (x.mapError .model, r) := rfl

theorem exec_ofUpdating (x : Updating t α) :
    exec (ofUpdating x) r = (x.value.mapError .model, r) := rfl

theorem exec_update {state : State} {a : ActionId} : exec (update (t := t) state a) r =
    ((Update.apply (t := t) r.tree.arena state a).value.1.mapError .model,
      r.withArena (Update.apply (t := t) r.tree.arena state a).value.2) := rfl

theorem exec_ofExcept_ok {x : Except ModelError α} {a : α}
    (h : exec (ofExcept (t := t) x) r = (.ok a, r')) : x = .ok a ∧ r' = r := by
  obtain ⟨hx, hr⟩ := Prod.mk.inj h
  exact ⟨Fallible.mapError_eq_ok hx, hr.symm⟩

theorem exec_ofUpdating_ok {x : Updating t α} {a : α}
    (h : exec (ofUpdating x) r = (.ok a, r')) : x.value = .ok a ∧ r' = r := by
  obtain ⟨hx, hr⟩ := Prod.mk.inj h
  exact ⟨Fallible.mapError_eq_ok hx, hr.symm⟩

theorem exec_update_ok {state : State} {a : ActionId} {next? : Option State}
    (h : exec (update (t := t) state a) r = (.ok next?, r')) :
    ∃ arena, (Update.apply (t := t) r.tree.arena state a).value = (.ok next?, arena) ∧
      r' = r.withArena arena := by
  obtain ⟨hx, hr⟩ := Prod.mk.inj h
  exact ⟨_, Prod.ext (Fallible.mapError_eq_ok hx) rfl, hr.symm⟩

theorem exec_bind_error {x : Planning t α} {f : α → Planning t β} {e : PlanError}
    (hexec : exec (x >>= f) r = (.error e, r')) :
    exec x r = (.error e, r') ∨
      ∃ b r₁, exec x r = (.ok b, r₁) ∧ exec (f b) r₁ = (.error e, r') := by
  rw [exec_bind] at hexec
  cases hx : exec x r with
  | mk result r₁ =>
    rw [hx] at hexec
    cases result with
    | error e' =>
      cases hexec
      exact Or.inl rfl
    | ok b => exact Or.inr ⟨b, r₁, rfl, hexec⟩

theorem exec_ofExcept_error {x : Except ModelError α} {e : PlanError}
    (hexec : exec (ofExcept (t := t) x) r = (.error e, r')) : ∃ m, x = .error m ∧ e = .model m :=
  Fallible.mapError_eq_error (Prod.mk.inj hexec).1

/-! ### What steps preserve -/

variable {I : Run → Prop}

/-- If `I` holds before the step, it holds afterwards, also when the step fails. -/
def Preserves (I : Run → Prop) (r : Run) (x : Planning t α) : Prop := I r → I (exec x r).2

theorem Preserves.bind {x : Planning t α} {f : α → Planning t β} (hx : Preserves I r x)
    (hf : ∀ a r₁, Preserves I r₁ (f a)) : Preserves I r (x >>= f) := by
  intro hr
  have hfirst := hx hr
  rw [exec_bind]
  cases hexec : exec x r with
  | mk result r₁ =>
    rw [hexec] at hfirst
    cases result with
    | error e => exact hfirst
    | ok a => exact hf a r₁ hfirst

theorem preserves_forM {f : α → Planning t PUnit} {l : List α}
    (hf : ∀ x r, Preserves I r (f x)) : Preserves I r (l.forM f) := by
  induction l generalizing r with
  | nil => exact id
  | cons x l ih => exact (hf x r).bind fun _ _ => ih

end Planning

/-! ### Trying an action -/

/-- The run after a look at a new state of depth `depth`: the first goal world lowers the bound. -/
inductive Run.Watched (t : PlanningTask) (next : State) (depth : Nat) (r : Run) : Run → Prop
  | found_before (h : r.goalDepth ≠ none) : Watched t next depth r r
  | nowhere (h : r.goalDepth = none)
      (hgoal : next.worldsSatisfying r.tree.arena t.goal = .ok []) : Watched t next depth r r
  | first (h : r.goalDepth = none) {ws : List WorldId}
      (hgoal : next.worldsSatisfying r.tree.arena t.goal = .ok ws) (hws : ws ≠ []) :
      Watched t next depth r (r.noteGoal depth)

/-- The run with a child added to a node. -/
def Run.withChild (r : Run) (n : NodeId) (a : ActionId) (next : State) : Run :=
  { r with tree := r.tree.addChild n a next }

/-- What trying an action at a node can do to a run when nothing fails: the owner may not take the
action; or it may, but the update leaves no designated world; or the updated state becomes a
child. -/
inductive Run.Attempt (t : PlanningTask) (c : PlannerConfig) (n : NodeId) (action : Action)
    (a : ActionId) (r : Run) : Run → Prop
  | refused {shifted : State}
      (hshift : (r.tree.node n).state.perspective action.owner = .ok shifted)
      (happ : (Updating.isApplicable (t := t) r.tree.arena shifted a).value = .ok false) :
      Attempt t c n action a r r
  | fruitless {shifted : State} {arena : Arena}
      (hshift : (r.tree.node n).state.perspective action.owner = .ok shifted)
      (happ : (Updating.isApplicable (t := t) r.tree.arena shifted a).value = .ok true)
      (hroom : r.tree.size < c.maxNodes)
      (hupdate : (Update.apply (t := t) r.tree.arena shifted a).value = (.ok none, arena)) :
      Attempt t c n action a r (r.withArena arena)
  | grown {shifted next : State} {arena : Arena} {r₁ : Run}
      (hshift : (r.tree.node n).state.perspective action.owner = .ok shifted)
      (happ : (Updating.isApplicable (t := t) r.tree.arena shifted a).value = .ok true)
      (hroom : r.tree.size < c.maxNodes)
      (hupdate : (Update.apply (t := t) r.tree.arena shifted a).value = (.ok (some next), arena))
      (hwatch : Run.Watched t next ((r.tree.node n).depth + 1) (r.withArena arena) r₁) :
      Attempt t c n action a r (r₁.withChild n a next)

namespace Planning

theorem watched_of_exec {next : State} {depth : Nat}
    (h : exec (watchGoal (t := t) next depth) r = (.ok ⟨⟩, r')) : r.Watched t next depth r' := by
  unfold watchGoal at h
  obtain ⟨r₁, r₂, hget, h⟩ := exec_bind_ok h
  cases hget
  split at h
  · next hnone =>
    obtain ⟨ws, r₂, hws, h⟩ := exec_bind_ok h
    obtain ⟨hgoal, rfl⟩ := exec_ofExcept_ok hws
    have hnone' := Option.isNone_iff_eq_none.1 hnone
    cases ws with
    | nil =>
      cases h
      exact .nowhere hnone' hgoal
    | cons w ws =>
      cases h
      exact .first hnone' hgoal (List.cons_ne_nil w ws)
  · next hsome =>
    cases h
    exact .found_before (by simpa using hsome)

theorem attempt_of_exec {c : PlannerConfig} {n : NodeId} {action : Action} {a : ActionId}
    (h : exec (tryAction (t := t) c n action a) r = (.ok ⟨⟩, r')) :
    r.Attempt t c n action a r' := by
  unfold tryAction tryActionBy adopt at h
  obtain ⟨_, _, hget, hrest⟩ := exec_bind_ok h
  cases hget
  obtain ⟨shifted, _, hperspective, hrest⟩ := exec_bind_ok hrest
  obtain ⟨hshift, rfl⟩ := exec_ofExcept_ok hperspective
  obtain ⟨b, _, hasked, hrest⟩ := exec_bind_ok hrest
  obtain ⟨happ, rfl⟩ := exec_ofUpdating_ok hasked
  cases b with
  | false =>
    cases hrest
    exact .refused hshift happ
  | true =>
    simp only [if_true] at hrest
    split at hrest
    · obtain ⟨_, _, hthrow, _⟩ := exec_bind_ok hrest
      cases hthrow
    · next hroom =>
      obtain ⟨next?, _, hupdated, hrest⟩ := exec_bind_ok hrest
      obtain ⟨arena, hupdate, rfl⟩ := exec_update_ok hupdated
      have hroom := Nat.lt_of_not_le hroom
      cases next? with
      | none =>
        cases hrest
        exact .fruitless hshift happ hroom hupdate
      | some next =>
        obtain ⟨_, _, hwatch, hrest⟩ := exec_bind_ok hrest
        cases hrest
        exact .grown hshift happ hroom hupdate (watched_of_exec hwatch)

end Planning

end EpistemicPlanning
