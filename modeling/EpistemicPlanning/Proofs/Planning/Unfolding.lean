import EpistemicPlanning.Proofs.Planning.Steps
import EpistemicPlanning.Proofs.SearchTree.Uncosted

/-!
# A run unfolds its task

Whatever costs have been computed in between, the tree of a run grows as the task unfolds: trying
an action does to the tree what `SearchTree.sprout` does (`Run.Expanding.attempt`). The bound is
lowered to the first level below the root that has a goal world, once such a level has been made
(`Run.Noted`).
-/
namespace EpistemicPlanning

open SearchTree

variable {t : PlanningTask} {c : PlannerConfig} {r r' r₀ : Run} {g g' h h' : SearchTree}
variable {n : NodeId} {ns : List NodeId} {d k s : Nat} {action : Action} {a : ActionId}
variable {l : List (Action × ActionId)}

/-! ### Goal worlds -/

namespace SearchTree

/-- The goal holds at some world of a node. -/
def HasGoal (t : PlanningTask) (g : SearchTree) (n : NodeId) : Prop :=
  ∃ w ∈ (g.node n).state.possible, t.goal.evaluate g.arena (g.node n).state w = .ok true

/-- Some node from the `s`-th on has a goal world. -/
def GoalFrom (t : PlanningTask) (s : Nat) (g : SearchTree) : Prop :=
  ∃ n, s ≤ n.index ∧ n.index < g.size ∧ g.HasGoal t n

theorem Extends.hasGoal_iff (hext : g'.Extends g) (hs : g.Sound t) (hn : n.index < g.size) :
    g'.HasGoal t n ↔ g.HasGoal t n := by
  have heval : ∀ w ∈ (g.node n).state.possible,
      t.goal.evaluate g.arena (g.node n).state w =
        t.goal.evaluate g'.arena (g'.node n).state w := by
    intro w hw
    refine (hs.state n hn).evaluate_congr (hext.links hn).symm (fun v hv => ?_) t.goal hw
    exact (hext.arena.valuation v (hs.inArena n hn v hv)).symm
  unfold HasGoal
  rw [hext.possible hn]
  constructor
  · rintro ⟨w, hw, hgoal⟩
    exact ⟨w, hw, (heval w hw).trans hgoal⟩
  · rintro ⟨w, hw, hgoal⟩
    exact ⟨w, hw, (heval w hw).symm.trans hgoal⟩

theorem goalFrom_of_extends (hext : g'.Extends g) (hs : g.Sound t) (hgoal : g.GoalFrom t s) :
    g'.GoalFrom t s := by
  obtain ⟨n, hle, hn, hgoal⟩ := hgoal
  exact ⟨n, hle, Nat.lt_of_lt_of_le hn hext.size, (hext.hasGoal_iff hs hn).2 hgoal⟩

theorem goalFrom_of_sameShape (hshape : g.SameShape g') (hs : g.Sound t) :
    g.GoalFrom t s ↔ g'.GoalFrom t s :=
  ⟨goalFrom_of_extends (.of_sameShape hshape.symm) hs,
    goalFrom_of_extends (.of_sameShape hshape) (hs.of_sameShape hshape)⟩

end SearchTree

theorem PointedModel.worldsSatisfying_ne_nil {state : State} {arena : Arena} {f : Formula}
    {ws : List WorldId} (h : state.worldsSatisfying arena f = .ok ws) :
    ws ≠ [] ↔ ∃ w ∈ state.possible, f.evaluate arena state w = .ok true := by
  constructor
  · intro hne
    obtain ⟨w, hw⟩ := List.exists_mem_of_ne_nil ws hne
    exact ⟨w, (Fallible.mem_filterM h w).1 hw⟩
  · rintro ⟨w, hw⟩ rfl
    cases (Fallible.mem_filterM h w).2 hw

/-! ### Expanding a node of a run -/

namespace Run

/-- What a run has noticed of the goal since `r₀`, when the nodes from the `s`-th on are new and at
depth `d + 1`. -/
inductive Noted (t : PlanningTask) (d s : Nat) (r₀ r : Run) : Prop
  | before (hfound : r₀.goalDepth ≠ none) (hgoal : r.goalDepth = r₀.goalDepth)
      (hlimit : r.limit = r₀.limit)
  | nowhere (hfound : r₀.goalDepth = none) (hgoal : r.goalDepth = none)
      (hlimit : r.limit = r₀.limit) (hnone : ¬r.tree.GoalFrom t s)
  | first (hfound : r₀.goalDepth = none) (hgoal : r.goalDepth = some (d + 1))
      (hlimit : r.limit = min r₀.limit (d + 1)) (hsome : r.tree.GoalFrom t s)

/-- What is noted of the goal can only lower the bound. -/
theorem Noted.limit_le (h : r₀.Noted t d s r) : r.limit ≤ r₀.limit := by
  cases h with
  | before _ _ hlimit => exact Nat.le_of_eq hlimit
  | nowhere _ _ hlimit _ => exact Nat.le_of_eq hlimit
  | first _ _ hlimit _ =>
    rw [hlimit]
    exact Nat.min_le_left _ _

/-- The bound is not lowered to a level above the children. -/
theorem Noted.lt_limit (h : r₀.Noted t d s r) (hd : d < r₀.limit) : d < r.limit := by
  cases h with
  | before _ _ hlimit => omega
  | nowhere _ _ hlimit _ => omega
  | first _ _ hlimit _ => omega

/-- A run that is expanding the level at depth `d`, which it began as `r₀`. -/
structure Expanding (t : PlanningTask) (d : Nat) (r₀ r : Run) : Prop where
  sound : r.tree.Sound t
  size : r₀.tree.size ≤ r.tree.size
  noted : r₀.Noted t d r₀.tree.size r
  frontier : r.frontier = r₀.frontier
  iterations : r.iterations = r₀.iterations

theorem expanding_self (hs : r.tree.Sound t) : r.Expanding t d r := by
  refine ⟨hs, Nat.le_refl _, ?_, rfl, rfl⟩
  by_cases hfound : r.goalDepth = none
  · refine .nowhere hfound hfound rfl ?_
    rintro ⟨n, hle, hlt, _⟩
    exact Nat.not_lt_of_le hle hlt
  · exact .before hfound rfl rfl

theorem Watched.tree_eq {next : State} {depth : Nat} (hw : r.Watched t next depth r') :
    r'.tree = r.tree := by
  cases hw with
  | found_before _ => rfl
  | nowhere _ _ => rfl
  | first _ _ _ => rfl

theorem Watched.frontier_eq {next : State} {depth : Nat} (hw : r.Watched t next depth r') :
    r'.frontier = r.frontier ∧ r'.iterations = r.iterations := by
  cases hw with
  | found_before _ => exact ⟨rfl, rfl⟩
  | nowhere _ _ => exact ⟨rfl, rfl⟩
  | first _ _ _ => exact ⟨rfl, rfl⟩

theorem Watched.tree_withChild {arena : Arena} {next : State} {depth : Nat} {r₁ : Run}
    (hwatch : Run.Watched t next depth (r.withArena arena) r₁) :
    (r₁.withChild n a next).tree = r.tree.grown arena n a next := by
  change r₁.tree.addChild n a next = _
  rw [hwatch.tree_eq]
  rfl

/-- Once the goal has been found, it is not looked for. -/
theorem Watched.eq_of_found {next : State} {depth : Nat} (hwatch : r.Watched t next depth r')
    (hfound : r.goalDepth ≠ none) : r' = r := by
  cases hwatch with
  | found_before _ => rfl
  | nowhere hnone _ => exact absurd hnone hfound
  | first hnone _ _ => exact absurd hnone hfound

/-- Until the goal has been found, it is looked for in each new child. -/
theorem Watched.cases_of_unfound {arena : Arena} {next : State} {depth : Nat} {r₁ : Run}
    (hn : n.index < r.tree.size) (hunfound : r.goalDepth = none)
    (hwatch : Run.Watched t next depth (r.withArena arena) r₁) :
    r₁ = r.withArena arena ∧ ¬(r.tree.grown arena n a next).HasGoal t ⟨r.tree.size⟩ ∨
      r₁ = (r.withArena arena).noteGoal depth ∧
        (r.tree.grown arena n a next).HasGoal t ⟨r.tree.size⟩ := by
  have hnew := node_grown_new arena next a hn (rfl : (⟨r.tree.size⟩ : NodeId).index = r.tree.size)
  -- the goal holds at a world of the new node as it was seen
  have hseen : ∀ {ws}, next.worldsSatisfying arena t.goal = .ok ws →
      (ws ≠ [] ↔ (r.tree.grown arena n a next).HasGoal t ⟨r.tree.size⟩) := by
    intro ws hws
    unfold HasGoal
    rw [hnew]
    exact PointedModel.worldsSatisfying_ne_nil hws
  cases hwatch with
  | found_before hfound => exact absurd hunfound hfound
  | nowhere _ hgoal => exact Or.inl ⟨rfl, fun hyes => (hseen hgoal).2 hyes rfl⟩
  | first _ hgoal hws => exact Or.inr ⟨rfl, (hseen hgoal).1 hws⟩

/-- A look at a new child notices whether it is the first with a goal world. -/
theorem Noted.watched {arena : Arena} {next : State} {r₁ : Run} (hs : r.tree.Sound t)
    (hsize : s ≤ r.tree.size) (hn : n.index < r.tree.size)
    (hext : (r.tree.grown arena n a next).Extends r.tree) (hnoted : r₀.Noted t d s r)
    (hwatch : Run.Watched t next (d + 1) (r.withArena arena) r₁) :
    r₀.Noted t d s (r₁.withChild n a next) := by
  have htree : (r₁.withChild n a next).tree = r.tree.grown arena n a next := hwatch.tree_withChild
  have hin : r.tree.size < (r.tree.grown arena n a next).size := by
    rw [size_grown]
    exact Nat.lt_succ_self _
  -- a goal world in the new state counts only if none has been seen before
  cases hnoted with
  | before hfound hgoal hlimit =>
    obtain rfl := hwatch.eq_of_found (hgoal.symm ▸ hfound)
    exact .before hfound hgoal hlimit
  | nowhere hfound hgoal hlimit hnone =>
    rcases hwatch.cases_of_unfound hn hgoal with ⟨rfl, hno⟩ | ⟨rfl, hyes⟩
    · refine .nowhere hfound hgoal hlimit ?_
      rw [htree]
      intro ⟨m, hle, hm, hgoal⟩
      rcases node_grown_cases hn hm with ⟨hm, _⟩ | ⟨hm, _⟩
      · exact hnone ⟨m, hle, hm, (hext.hasGoal_iff hs hm).1 hgoal⟩
      · obtain rfl : m = ⟨r.tree.size⟩ := Handle.index_injective hm
        exact hno hgoal
    · have hlowered : min r.limit (d + 1) = min r₀.limit (d + 1) := by rw [hlimit]
      refine .first hfound rfl hlowered ?_
      rw [htree]
      exact ⟨⟨r.tree.size⟩, hsize, hin, hyes⟩
  | first hfound hgoal hlimit hsome =>
    obtain rfl := hwatch.eq_of_found (hgoal.symm ▸ Option.some_ne_none _)
    refine .first hfound hgoal hlimit ?_
    rw [htree]
    exact goalFrom_of_extends hext hs hsome

theorem Expanding.attempt (hr : r₀.Expanding t d r) (hn : n.index < r.tree.size)
    (hd : (r.tree.node n).depth = d) (hact : t.action? a = some action)
    (htry : r.Attempt t c n action a r') :
    r.tree.sprout t n (action, a) = .ok r'.tree ∧ r₀.Expanding t d r' := by
  -- an action that is not applicable, or that leaves no world, adds no node
  cases htry with
  | refused hshift happ =>
    refine ⟨?_, hr⟩
    unfold sprout
    rw [Update.perform_of_perspective hshift, Update.performSeen_of_not_applicable happ]
    rfl
  | fruitless hshift happ _ hupdate =>
    obtain rfl := Update.value_apply_unchanged hupdate fun _ heq => nomatch heq
    refine ⟨?_, hr⟩
    unfold sprout
    rw [Update.perform_of_perspective hshift, Update.performSeen_of_applicable happ, hupdate]
    rfl
  | @grown shifted next arena r₁ hshift happ _ hupdate hwatch =>
    have hperform : Update.perform t r.tree.arena (r.tree.node n).state action a =
        .ok (some next, arena) := Update.perform_eq_some.2 ⟨shifted, hshift, happ, hupdate⟩
    have htree : (r₁.withChild n a next).tree = r.tree.grown arena n a next :=
      hwatch.tree_withChild
    have hsprout : r.tree.sprout t n (action, a) = .ok (r.tree.grown arena n a next) := by
      unfold sprout
      rw [hperform]
      rfl
    have hext := hr.sound.extends_of_sprout hn hact hsprout
    have hsize := hr.size
    have hsame := hwatch.frontier_eq
    rw [hd] at hwatch
    refine ⟨by rw [htree, hsprout], ?_, ?_, ?_, hsame.1.trans hr.frontier,
      hsame.2.trans hr.iterations⟩
    · rw [htree]
      exact hr.sound.grown hn hact hperform
    · rw [htree]
      exact Nat.le_trans hsize hext.size
    · exact hr.noted.watched hr.sound hsize hn hext hwatch

end Run

namespace Planning

theorem exec_cons_ok {α : Type} {f : α → Planning t PUnit} {x : α} {xs : List α}
    (hexec : exec ((x :: xs).forM f) r = (.ok ⟨⟩, r')) :
    ∃ r₁, exec (f x) r = (.ok ⟨⟩, r₁) ∧ exec (xs.forM f) r₁ = (.ok ⟨⟩, r') := by
  change exec (f x >>= fun _ => xs.forM f) r = _ at hexec
  obtain ⟨_, r₁, hx, hrest⟩ := exec_bind_ok hexec
  exact ⟨r₁, hx, hrest⟩

/-- The rest of a loop follows when a part of it has succeeded. -/
theorem exec_forM_append {α : Type} {f : α → Planning t PUnit} {l l' : List α} {r₁ : Run}
    (h : exec (l.forM f) r = (.ok ⟨⟩, r₁)) :
    exec ((l ++ l').forM f) r = exec (l'.forM f) r₁ := by
  induction l generalizing r with
  | nil =>
    cases h
    rfl
  | cons x l ih =>
    obtain ⟨r₂, hx, hrest⟩ := exec_cons_ok h
    change exec (f x >>= fun _ => (l ++ l').forM f) r = _
    rw [exec_bind, hx]
    exact ih hrest

theorem exec_forM_snoc {α : Type} {f : α → Planning t PUnit} {l : List α} {x : α} {r₁ r₂ : Run}
    (h : exec (l.forM f) r = (.ok ⟨⟩, r₁)) (hx : exec (f x) r₁ = (.ok ⟨⟩, r₂)) :
    exec ((l ++ [x]).forM f) r = (.ok ⟨⟩, r₂) := by
  rw [exec_forM_append h]
  change exec (f x >>= fun _ => [].forM f) r₁ = _
  rw [exec_bind, hx]
  rfl

theorem expanding_of_exec_tryAll (hr : r₀.Expanding t d r) (hn : n.index < r.tree.size)
    (hd : (r.tree.node n).depth = d) (hl : ∀ p ∈ l, t.action? p.2 = some p.1)
    (hexec : exec (l.forM fun p => tryAction (t := t) c n p.1 p.2) r = (.ok ⟨⟩, r')) :
    l.foldlM (sprout t n) r.tree = .ok r'.tree ∧ r₀.Expanding t d r' := by
  induction l generalizing r with
  | nil =>
    cases hexec
    exact ⟨rfl, hr⟩
  | cons p l ih =>
    obtain ⟨r₁, hfirst, hrest⟩ := exec_cons_ok hexec
    have hact := hl p List.mem_cons_self
    obtain ⟨hsprout, hr₁⟩ := hr.attempt hn hd hact (attempt_of_exec hfirst)
    have hext := hr.sound.extends_of_sprout hn hact hsprout
    have hn₁ := Nat.lt_of_lt_of_le hn hext.size
    have hd₁ : (r₁.tree.node n).depth = d := by rw [hext.depth hn, hd]
    obtain ⟨hfold, hr'⟩ := ih hr₁ hn₁ hd₁ (fun q hq => hl q (List.mem_cons_of_mem _ hq)) hrest
    refine ⟨?_, hr'⟩
    rw [List.foldlM_cons, hsprout]
    exact hfold

theorem expanding_of_exec_expand (hr : r₀.Expanding t d r) (hn : n.index < r.tree.size)
    (hd : (r.tree.node n).depth = d) (hexec : exec (expand (t := t) c n) r = (.ok ⟨⟩, r')) :
    r.tree.expanded t n = .ok r'.tree ∧ r₀.Expanding t d r' :=
  expanding_of_exec_tryAll hr hn hd (fun _ hp => PlanningTask.mem_numbered.1 hp) hexec

theorem expanding_of_exec_expandAll (hr : r₀.Expanding t d r)
    (hns : ∀ n ∈ ns, n.index < r.tree.size ∧ (r.tree.node n).depth = d)
    (hexec : exec (ns.forM (expand (t := t) c)) r = (.ok ⟨⟩, r')) :
    r.tree.expandAll t ns = .ok r'.tree ∧ r₀.Expanding t d r' := by
  induction ns generalizing r with
  | nil =>
    cases hexec
    exact ⟨rfl, hr⟩
  | cons n ns ih =>
    obtain ⟨r₁, hfirst, hrest⟩ := exec_cons_ok hexec
    obtain ⟨hn, hd⟩ := hns n List.mem_cons_self
    obtain ⟨hexp, hr₁⟩ := expanding_of_exec_expand hr hn hd hfirst
    obtain ⟨hext, _⟩ := extends_of_expanded hr.sound hn hexp
    have hns₁ : ∀ m ∈ ns, m.index < r₁.tree.size ∧ (r₁.tree.node m).depth = d := by
      intro m hm
      obtain ⟨hm, hdm⟩ := hns m (List.mem_cons_of_mem _ hm)
      exact ⟨Nat.lt_of_lt_of_le hm hext.size, by rw [hext.depth hm, hdm]⟩
    obtain ⟨hfold, hr'⟩ := ih hr₁ hns₁ hrest
    refine ⟨?_, hr'⟩
    unfold expandAll
    rw [List.foldlM_cons, hexp]
    exact hfold

end Planning

end EpistemicPlanning
