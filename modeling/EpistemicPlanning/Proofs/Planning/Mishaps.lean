import EpistemicPlanning.Proofs.Planning.Rounds

/-!
# How rounds fail

A round fails where an action is tried at a node of the tree (`Run.Mishap`), or where the costs are
computed; there is no other way (`Planning.broken_of_exec_round`).
-/
namespace EpistemicPlanning

open SearchTree

variable {t : PlanningTask} {c : PlannerConfig} {r r' : Run} {h : SearchTree} {n : NodeId}
variable {action : Action} {a : ActionId} {d levels : Nat} {e : PlanError} {α β : Type}

namespace Planning

theorem exec_ofUpdating_error {x : Updating t α}
    (hexec : exec (ofUpdating x) r = (.error e, r')) : ∃ m, x.value = .error m ∧ e = .model m :=
  Fallible.mapError_eq_error (Prod.mk.inj hexec).1

theorem exec_update_error {state : State}
    (hexec : exec (update (t := t) state a) r = (.error e, r')) :
    ∃ m, (Update.apply (t := t) r.tree.arena state a).value.1 = .error m ∧ e = .model m :=
  Fallible.mapError_eq_error (Prod.mk.inj hexec).1

/-- A loop of steps fails at one of them, after those before it have succeeded. -/
theorem exec_forM_error {f : α → Planning t PUnit} {l : List α}
    (hexec : exec (l.forM f) r = (.error e, r')) :
    ∃ before x after r₁, l = before ++ x :: after ∧
      exec (before.forM f) r = (.ok ⟨⟩, r₁) ∧ exec (f x) r₁ = (.error e, r') := by
  induction l generalizing r with
  | nil => cases hexec
  | cons x l ih =>
    change exec (f x >>= fun _ => l.forM f) r = _ at hexec
    rcases exec_bind_error hexec with hx | ⟨_, r₁, hx, hrest⟩
    · exact ⟨[], x, l, r, rfl, rfl, hx⟩
    · obtain ⟨before, y, after, r₂, rfl, hbefore, hy⟩ := ih hrest
      refine ⟨x :: before, y, after, r₂, rfl, ?_, hy⟩
      change exec (f x >>= fun _ => before.forM f) r = _
      rw [exec_bind, hx]
      exact hbefore

end Planning

/-- How trying an action at a node can fail: there is no room for a child, or something is not
found. -/
inductive Run.Mishap (t : PlanningTask) (c : PlannerConfig) (n : NodeId) (action : Action)
    (a : ActionId) (r : Run) : PlanError → Prop
  | perspective {m : ModelError}
      (hshift : (r.tree.node n).state.perspective action.owner = .error m) :
      Mishap t c n action a r (.model m)
  | applicability {shifted : State} {m : ModelError}
      (hshift : (r.tree.node n).state.perspective action.owner = .ok shifted)
      (happ : (Updating.isApplicable (t := t) r.tree.arena shifted a).value = .error m) :
      Mishap t c n action a r (.model m)
  | crowded (hroom : c.maxNodes ≤ r.tree.size) :
      Mishap t c n action a r (.planning (.tooManyNodes c.maxNodes (r.tree.size + 1)))
  | update {shifted : State} {m : ModelError}
      (hshift : (r.tree.node n).state.perspective action.owner = .ok shifted)
      (hupdate : (Update.apply (t := t) r.tree.arena shifted a).value.1 = .error m) :
      Mishap t c n action a r (.model m)
  | goal {shifted next : State} {arena : Arena} {m : ModelError}
      (hshift : (r.tree.node n).state.perspective action.owner = .ok shifted)
      (hupdate : (Update.apply (t := t) r.tree.arena shifted a).value = (.ok (some next), arena))
      (hgoal : next.worldsSatisfying arena t.goal = .error m) :
      Mishap t c n action a r (.model m)

/-- A failure of a round: while an action is tried at a node of a sound tree, or while the costs of
a sound tree are computed. -/
inductive Run.Broken (t : PlanningTask) (c : PlannerConfig) : PlanError → Prop
  | growing {r : Run} {n : NodeId} {action : Action} {a : ActionId} {e : PlanError}
      (hsound : r.tree.Sound t) (hn : n.index < r.tree.size) (hact : t.action? a = some action)
      (h : r.Mishap t c n action a e) : Broken t c e
  | costing {g : SearchTree} {d : Nat} {m : ModelError} (hsound : g.Sound t)
      (h : g.withCosts t d = .error m) : Broken t c (.model m)

namespace Planning

open Run

theorem exec_watchGoal_error {next : State} {depth : Nat}
    (hexec : exec (watchGoal (t := t) next depth) r = (.error e, r')) :
    ∃ m, next.worldsSatisfying r.tree.arena t.goal = .error m ∧ e = .model m := by
  unfold watchGoal at hexec
  rw [exec_bind, exec_get] at hexec
  dsimp only at hexec
  split at hexec
  · rcases exec_bind_error hexec with hfail | ⟨ws, r₁, _, hrest⟩
    · exact exec_ofExcept_error hfail
    · cases ws with
      | nil => cases hrest
      | cons w ws => cases hrest
  · cases hexec

theorem mishap_of_exec (hexec : exec (tryAction (t := t) c n action a) r = (.error e, r')) :
    r.Mishap t c n action a e := by
  unfold tryAction tryActionBy adopt at hexec
  rw [exec_bind, exec_get] at hexec
  dsimp only at hexec
  rcases exec_bind_error hexec with hfail | ⟨shifted, _, hperspective, hrest⟩
  · obtain ⟨m, hshift, rfl⟩ := exec_ofExcept_error hfail
    exact .perspective hshift
  obtain ⟨hshift, rfl⟩ := exec_ofExcept_ok hperspective
  rcases exec_bind_error hrest with hfail | ⟨b, _, hasked, hrest⟩
  · obtain ⟨m, happ, rfl⟩ := exec_ofUpdating_error hfail
    exact .applicability hshift happ
  obtain ⟨_, rfl⟩ := exec_ofUpdating_ok hasked
  cases b with
  | false => cases hrest
  | true =>
    simp only [if_true] at hrest
    split at hrest
    · next hroom =>
      cases hrest
      exact .crowded hroom
    · rcases exec_bind_error hrest with hfail | ⟨next?, _, hupdated, hrest⟩
      · obtain ⟨m, hupdate, rfl⟩ := exec_update_error hfail
        exact .update hshift hupdate
      obtain ⟨arena, hupdate, rfl⟩ := exec_update_ok hupdated
      cases next? with
      | none => cases hrest
      | some next =>
        rcases exec_bind_error hrest with hfail | ⟨_, _, _, hrest⟩
        · obtain ⟨m, hgoal, rfl⟩ := exec_watchGoal_error hfail
          exact .goal hshift hupdate hgoal
        · cases hrest

theorem broken_of_exec_expandAll {ns : List NodeId} (hs : r.tree.Sound t)
    (hns : ∀ n ∈ ns, n.index < r.tree.size ∧ (r.tree.node n).depth = d)
    (hexec : exec (ns.forM (expand (t := t) c)) r = (.error e, r')) : Broken t c e := by
  obtain ⟨before, n, after, r₁, rfl, hbefore, hn⟩ := exec_forM_error hexec
  have hfront : ∀ m ∈ before, m.index < r.tree.size ∧ (r.tree.node m).depth = d := fun m hm =>
    hns m (List.mem_append_left _ hm)
  obtain ⟨hexp, hexpanding⟩ :=
    expanding_of_exec_expandAll (expanding_self hs) hfront hbefore
  obtain ⟨hin, hd⟩ := hns n (List.mem_append_right _ List.mem_cons_self)
  have hext := extends_of_expandAll hs (fun m hm => (hfront m hm).1) hexp
  have hin₁ := Nat.lt_of_lt_of_le hin hext.size
  have hd₁ : (r₁.tree.node n).depth = d := (hext.depth hin).trans hd
  obtain ⟨done, p, rest, r₂, hsplit, hdone, hp⟩ := exec_forM_error hn
  have hall : ∀ q ∈ done ++ p :: rest, t.action? q.2 = some q.1 := fun q hq =>
    PlanningTask.mem_numbered.1 (hsplit ▸ hq)
  obtain ⟨hsprout, htried⟩ := expanding_of_exec_tryAll hexpanding hin₁ hd₁
    (fun q hq => hall q (List.mem_append_left _ hq)) hdone
  have hact := hall p (List.mem_append_right _ List.mem_cons_self)
  obtain ⟨hext₂, _⟩ := depth_of_sproutAll hexpanding.sound hin₁
    (fun q hq => hall q (List.mem_append_left _ hq)) hsprout
  exact .growing htried.sound (Nat.lt_of_lt_of_le hin₁ hext₂.size) hact (mishap_of_exec hp)

theorem broken_of_exec_growLevels (hacc : t.Accepted) (hr : r.AtLevel t d h)
    (hexec : exec (growLevels (t := t) c levels) r = (.error e, r')) : Broken t c e := by
  induction levels generalizing r d h with
  | zero => cases hexec
  | succ levels ih =>
    rw [growLevels_succ] at hexec
    rw [exec_bind, exec_get] at hexec
    dsimp only at hexec
    split at hexec
    · next hgrow =>
      have hd := ((hr.mayGrow_iff hacc).1 hgrow).2
      rcases exec_bind_error hexec with hfail | ⟨_, r₁, hlevel, hrest⟩
      · unfold growLevel growLevelBy at hfail
        rw [exec_bind, exec_get] at hfail
        dsimp only at hfail
        rcases exec_bind_error hfail with hloop | ⟨_, _, _, hdone⟩
        · exact broken_of_exec_expandAll (hr.sound hacc) (fun n hn => hr.mem_frontier hacc hn) hloop
        · cases hdone
      · obtain ⟨⟨h', hr'⟩, _⟩ := atLevel_of_exec_growLevel hacc hr hd hlevel
        exact ih hr' hrest
    · cases hexec

theorem exec_settle_error (hexec : exec (settle (t := t)) r = (.error e, r')) :
    ∃ m, r.tree.withCosts t r.limit = .error m ∧ e = .model m := by
  unfold settle at hexec
  rw [exec_bind, exec_get] at hexec
  dsimp only at hexec
  rcases exec_bind_error hexec with hfail | ⟨_, _, _, hdone⟩
  · obtain ⟨m, hvalue, rfl⟩ := exec_ofUpdating_error hfail
    refine ⟨m, ?_, rfl⟩
    unfold withCosts
    rw [hvalue]
    rfl
  · cases hdone

theorem broken_of_exec_round (hacc : t.Accepted) (hr : r.AtLevel t d h)
    (hexec : exec (round (t := t) c) r = (.error e, r')) : Broken t c e := by
  have hbegun : ({ r with iterations := r.iterations + 1 } : Run).AtLevel t d h :=
    hr.congr rfl rfl (Nat.le_refl _)
  unfold round at hexec
  rw [exec_bind, exec_modify] at hexec
  dsimp only at hexec
  rcases exec_bind_error hexec with hfail | ⟨_, r₁, hgrow, hsettle⟩
  · rw [grow_eq, exec_bind, exec_get] at hfail
    exact broken_of_exec_growLevels hacc hbegun hfail
  · obtain ⟨⟨h₁, hr₁⟩, _, _⟩ := atLevel_of_exec_grow hacc hbegun hgrow
    obtain ⟨m, hcosts, rfl⟩ := exec_settle_error hsettle
    exact .costing (hr₁.sound hacc) hcosts

end Planning

theorem Run.Broken.not_unsolvable (hb : Run.Broken t c e) : e.isUnsolvable = false := by
  cases hb with
  | growing _ _ _ h =>
    cases h with
    | perspective _ => rfl
    | applicability _ _ => rfl
    | crowded _ => rfl
    | update _ _ => rfl
    | goal _ _ _ => rfl
  | costing _ _ => rfl

end EpistemicPlanning
