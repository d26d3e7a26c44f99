import EpistemicPlanning.Proofs.Perspective
import EpistemicPlanning.Proofs.Plan.Failures
import EpistemicPlanning.Proofs.Planning.Limits
import EpistemicPlanning.Proofs.Planning.Sizes
import EpistemicPlanning.Proofs.Planning.Words
import EpistemicPlanning.Proofs.Update.Applicability

/-!
# Room for nodes

Two runs of the planner are compared, the second with a higher limit on nodes. They go the same way
as long as there is room for the nodes that the first makes. Where there is none, the first ends,
and the second makes one node more, since an applicable action always yields a child at a node with
designated worlds (`Planning.capped_tree`).
-/
namespace EpistemicPlanning

open SearchTree

variable {t : PlanningTask} {α β : Type} {c c' : PlannerConfig} {r r₀ r₁ : Run} {n : NodeId}
variable {ns rest : List NodeId} {before after : List (Action × ActionId)}
variable {action : Action} {a : ActionId} {seen next : State} {arena : Arena}
variable {depth levels rounds : Nat} {m : Memo t.outcome}

/-- The second configuration has a higher limit on nodes, and is the same otherwise. -/
structure PlannerConfig.Widens (c c' : PlannerConfig) : Prop where
  depth : c'.maxDepth = c.maxDepth
  iterations : c'.maxIterations = c.maxIterations
  nodes : c.maxNodes < c'.maxNodes

namespace Planning

/-! ### Taking an action -/

/-- An updated state becomes a node. -/
theorem size_adopt_of_next
    (hupdate : (Update.apply (t := t) r.tree.arena seen a).value = (.ok (some next), arena))
    (hgoal : Fallible.Succeeds (next.worldsSatisfying arena t.goal)) :
    (exec (adopt (t := t) n seen a depth) r).2.tree.size = r.tree.size + 1 := by
  rw [size_adopt_some hupdate]
  cases hwatch : exec (watchGoal (t := t) next depth) (r.withArena arena) with
  | mk watched r₁ =>
    cases watched with
    | error e =>
      obtain ⟨m, hfail, _⟩ := exec_watchGoal_error hwatch
      exact absurd hfail (hgoal.ne_error m)
    | ok _ => rfl

/-! ### Two limits -/

/-- How a step ends under a limit on nodes and under a higher one: alike, with no more nodes than
the lower limit; or there is no room for a node under the lower limit, and under the higher one
there are more nodes in the end. -/
inductive Bounded (t : PlanningTask) (c : PlannerConfig) :
    (Except PlanError α × Run) × Memo t.outcome → (Except PlanError α × Run) × Memo t.outcome → Prop
  | alike {result : Except PlanError α} {r : Run} {m : Memo t.outcome}
      (hsize : r.tree.size ≤ c.maxNodes) : Bounded t c ((result, r), m) ((result, r), m)
  | full {result : Except PlanError α} {r r' : Run} {m m' : Memo t.outcome}
      (hr : r.Visited t c) (hsize : r.tree.size = c.maxNodes)
      (hmore : c.maxNodes < r'.tree.size) (hless : r.tree.NoLarger r'.tree) :
      Bounded t c ((.error (.planning (.tooManyNodes c.maxNodes (c.maxNodes + 1))), r), m)
        ((result, r'), m')

/-- From a run, the second step is the first under a higher limit on nodes. -/
def Capped (c : PlannerConfig) (r : Run) (x y : Planning t α) : Prop :=
  ∀ m, Bounded t c (trace x r m) (trace y r m)

theorem capped_self {x : Planning t α} (h : (exec x r).2.tree.size ≤ c.maxNodes) :
    Capped c r x x := by
  intro m
  rw [exec_eq_trace x m] at h
  exact .alike h

theorem Capped.bind {x y : Planning t α} {f g : α → Planning t β} (hx : Capped c r x y)
    (hf : ∀ a r₁, exec x r = (.ok a, r₁) → r₁.tree.size ≤ c.maxNodes → Capped c r₁ (f a) (g a))
    (hg : ∀ a r₁, Grows r₁ (g a)) : Capped c r (x >>= f) (y >>= g) := by
  intro m
  have hfirst := hx m
  rw [trace_bind, trace_bind]
  cases hxm : trace x r m with
  | mk p m₁ =>
    obtain ⟨result, r₁⟩ := p
    have hexec := exec_of_trace hxm
    rw [hxm] at hfirst
    cases hym : trace y r m with
    | mk p' m₁' =>
      rw [hym] at hfirst
      cases hfirst with
      | alike hsize =>
        cases result with
        | error e => exact .alike hsize
        | ok a => exact hf a r₁ hexec hsize m₁
      | @full result' _ r' _ _ hr hsize hmore hless =>
        cases result' with
        | error e => exact .full hr hsize hmore hless
        | ok b =>
          have hgrows := hg b r'
          unfold Grows at hgrows
          rw [exec_eq_trace _ m₁'] at hgrows
          exact .full hr hsize (Nat.lt_of_lt_of_le hmore hgrows.nodes) (hless.trans hgrows)

theorem grows_proceed : Grows r (proceed (t := t) c rounds) := by
  unfold Grows
  rw [exec_eq_trace _ ∅, trace_proceed]
  split
  · exact .refl _
  · split
    · exact .refl _
    · split
      · exact .refl _
      · have hrest := @grows_deepen t c { r with limit := r.limit + 1 } rounds
        unfold Grows at hrest
        rwa [exec_eq_trace _ ∅] at hrest

variable (hacc : t.Accepted) (hfresh : t.arena.Fresh) (hclosed : t.Closed)
variable (hdes : ∃ w, w ∈ t.initial.designated) (hc : c.Widens c')

include hacc hfresh hclosed hdes

/-- An applicable action at a node with designated worlds leads to a state. -/
theorem size_adopt_of_applicable (depth : Nat) (hr : r.Visited t c) (hn : n.index < r.tree.size)
    (hact : t.action? a = some action)
    (hseen : (r.tree.node n).state.perspective action.owner = .ok seen)
    (happ : (Updating.isApplicable (t := t) r.tree.arena seen a).value = .ok true) :
    (exec (adopt (t := t) n seen a depth) r).2.tree.size = r.tree.size + 1 := by
  have hinformed := hr.informed hacc hfresh hclosed
  obtain ⟨next?, hok⟩ := hinformed.update n hn a action hact seen hseen ∅
  have hupdate : (Update.apply (t := t) r.tree.arena seen a).value = (.ok next?, _) :=
    Prod.ext hok rfl
  have hstate := ((hr.sound hacc).state n hn).perspective hseen
  have hdes' := (hr.exists_designated hacc hfresh hdes hn).imp fun w hw =>
    PointedModel.designated_subset_perspective hseen w hw
  obtain ⟨next, rfl⟩ := Update.exists_next_of_applicable hact hstate hdes' happ hupdate
  obtain ⟨_, _, hgoal⟩ := hinformed.updated n hn a action hact seen hseen ∅ next _ hupdate
  exact size_adopt_of_next hupdate hgoal

include hc

/-- At a node with designated worlds, an applicable action has to wait for room. -/
theorem capped_tryAction (hr : r.Visited t c) (hn : n.index < r.tree.size)
    (hact : t.action? a = some action) (hsize : r.tree.size ≤ c.maxNodes) :
    Capped (t := t) c r (tryAction c n action a) (tryAction c' n action a) := by
  intro m
  have hinformed := hr.informed hacc hfresh hclosed
  obtain ⟨seen, hseen⟩ := hinformed.perspective n hn a action hact
  obtain ⟨applicable, happ⟩ := hinformed.applicability n hn a action hact seen hseen m
  unfold tryAction
  rw [trace_tryActionBy hseen happ, trace_tryActionBy hseen happ]
  cases applicable with
  | false => exact .alike hsize
  | true =>
    simp only [if_true]
    have hroom : ¬c'.maxNodes ≤ r.tree.size :=
      Nat.not_le_of_lt (Nat.lt_of_le_of_lt hsize hc.nodes)
    rw [if_neg hroom]
    by_cases hfull : c.maxNodes ≤ r.tree.size
    · have heq := Nat.le_antisymm hsize hfull
      rw [if_pos hfull, heq]
      rw [Consult.run_fst_eq_value] at happ
      have hmore := size_adopt_of_applicable hacc hfresh hclosed hdes ((r.tree.node n).depth + 1) hr
        hn hact hseen happ
      have hless := @grows_adopt t r n a seen ((r.tree.node n).depth + 1)
      unfold Grows at hless
      rw [exec_eq_trace _ _] at hmore hless
      rw [heq] at hmore
      exact .full hr heq (Nat.lt_of_lt_of_eq (Nat.lt_succ_self _) hmore.symm) hless
    · rw [if_neg hfull]
      refine capped_self ?_ _
      exact Nat.le_trans size_adopt_le (Nat.lt_of_not_le hfull)

theorem capped_tryAll (h : r₀.Growing t c) (hgrow : r₀.mayGrow = true)
    (hsplit : r₀.frontier = ns ++ n :: rest)
    (hexpanded : exec (ns.forM (expand (t := t) c)) r₀ = (.ok ⟨⟩, r₁))
    (hactions : t.numbered = before ++ after)
    (htried : exec (before.forM fun p => tryAction (t := t) c n p.1 p.2) r₁ = (.ok ⟨⟩, r))
    (hsize : r.tree.size ≤ c.maxNodes) :
    Capped (t := t) c r (after.forM fun p => tryAction c n p.1 p.2)
      (after.forM fun p => tryAction c' n p.1 p.2) := by
  -- the actions that are left come after those that have been tried
  induction after generalizing before r with
  | nil =>
    change Capped c r (pure ⟨⟩ : Planning t PUnit) (pure ⟨⟩)
    exact capped_self hsize
  | cons p after ih =>
    obtain ⟨hn, _, hsprout, _⟩ := h.sprouted_of_exec hacc hgrow hsplit hexpanded hactions htried
    have hr : r.Visited t c := .trying h hgrow hsplit hexpanded hactions htried
    have hin : n.index < r.tree.size := Nat.lt_of_lt_of_le hn (size_le_of_sproutAll hsprout)
    have hact : t.action? p.2 = some p.1 := by
      refine PlanningTask.mem_numbered.1 ?_
      rw [hactions]
      exact List.mem_append_right _ List.mem_cons_self
    refine Capped.bind (capped_tryAction hacc hfresh hclosed hdes hc hr hin hact hsize)
      (fun _ r₂ hexec hsize₂ => ?_) fun _ _ => grows_forM fun _ _ _ => grows_tryAction
    have hactions' : t.numbered = (before ++ [p]) ++ after := by
      rw [hactions, List.append_cons]
    exact ih hactions' (exec_forM_snoc htried hexec) hsize₂

theorem capped_expandAll (h : r₀.Growing t c) (hgrow : r₀.mayGrow = true)
    (hsplit : r₀.frontier = ns ++ rest)
    (hexpanded : exec (ns.forM (expand (t := t) c)) r₀ = (.ok ⟨⟩, r))
    (hsize : r.tree.size ≤ c.maxNodes) :
    Capped (t := t) c r (rest.forM (expand c)) (rest.forM (expand c')) := by
  -- the nodes that are left come after those that have been expanded
  induction rest generalizing ns r with
  | nil =>
    change Capped c r (pure ⟨⟩ : Planning t PUnit) (pure ⟨⟩)
    exact capped_self hsize
  | cons n rest ih =>
    refine Capped.bind (capped_tryAll hacc hfresh hclosed hdes hc h hgrow hsplit hexpanded
      (List.nil_append _).symm rfl hsize)
      (fun _ r₂ hexec hsize₂ => ?_) fun _ _ => grows_forM fun _ _ _ => grows_expand
    have hsplit' : r₀.frontier = (ns ++ [n]) ++ rest := by
      rw [hsplit, List.append_cons]
    exact ih hsplit' (exec_forM_snoc hexpanded hexec) hsize₂

theorem capped_growLevel (h : r.Growing t c) (hgrow : r.mayGrow = true)
    (hsize : r.tree.size ≤ c.maxNodes) :
    Capped (t := t) c r (growLevel c) (growLevel c') := by
  unfold growLevel growLevelBy
  refine Capped.bind (capped_self hsize) (fun run r₁ hget hsize₁ => ?_) fun _ _ =>
    Grows.bind (grows_forM fun _ _ _ => grows_expand) fun _ _ _ => .refl _
  cases hget
  refine Capped.bind (capped_expandAll hacc hfresh hclosed hdes hc h hgrow
    (List.nil_append _).symm rfl hsize) (fun _ r₂ _ hsize₂ => capped_self hsize₂) fun _ _ =>
    .refl _

theorem capped_growLevels (h : r.Growing t c) (hsize : r.tree.size ≤ c.maxNodes) :
    Capped (t := t) c r (growLevels c levels) (growLevels c' levels) := by
  induction levels generalizing r with
  | zero =>
    change Capped c r (pure ⟨⟩ : Planning t PUnit) (pure ⟨⟩)
    exact capped_self hsize
  | succ levels ih =>
    intro m
    rw [trace_growLevels_succ, trace_growLevels_succ]
    split
    · next hgrow =>
      exact Capped.bind (capped_growLevel hacc hfresh hclosed hdes hc h hgrow hsize)
        (fun _ _ hexec hsize₁ => ih (.level h hgrow hexec) hsize₁) (fun _ _ => grows_growLevels) m
    · exact .alike hsize

theorem capped_round (h : r.AtRound t c) (hsize : r.tree.size ≤ c.maxNodes) :
    Capped (t := t) c r (round c) (round c') := by
  unfold round
  refine Capped.bind (capped_self hsize) (fun _ r₁ hbegun hsize₁ => ?_) fun _ _ => ?_
  · cases hbegun
    refine Capped.bind (f := fun _ => settle) (g := fun _ => settle) ?_
      (fun _ r₂ _ hsize₂ => ?_) fun _ _ => ?_
    · exact capped_growLevels hacc hfresh hclosed hdes hc (.begun h) hsize
    · exact capped_self (sameShape_exec_settle.size.symm ▸ hsize₂)
    · exact grows_settle
  · exact Grows.bind (grows_get grows_growLevels) fun _ _ _ => grows_settle

theorem capped_deepen (h : r.AtRound t c) (hsize : r.tree.size ≤ c.maxNodes) :
    Capped (t := t) c r (deepen c rounds) (deepen c' rounds) := by
  induction rounds generalizing r with
  | zero =>
    rw [deepen_zero, deepen_zero]
    exact capped_self hsize
  | succ rounds ih =>
    rw [deepen_succ, deepen_succ]
    refine Capped.bind (capped_round hacc hfresh hclosed hdes hc h hsize)
      (fun _ r₁ hround hsize₁ m => ?_) fun _ _ => grows_proceed
    rw [trace_proceed, trace_proceed, hc.depth]
    split
    · exact .alike hsize₁
    · next hopen =>
      split
      · exact .alike hsize₁
      · next hfrontier =>
        split
        · exact .alike hsize₁
        · next hlimit =>
          exact ih (.raised h hround (Bool.eq_false_iff.2 hopen)
            (fun hnil => hfrontier (List.isEmpty_iff.2 hnil)) (Nat.lt_of_not_le hlimit)) hsize₁ m

/-- A whole run ends alike under a higher limit on nodes, unless it finds no room for a node. -/
theorem capped_tree (hpos : 0 < c.maxNodes) :
    Capped (t := t) c (.initial t c) (Planning.tree c) (Planning.tree c') := by
  rw [tree_eq, tree_eq, hc.iterations]
  refine Capped.bind (capped_deepen hacc hfresh hclosed hdes hc .initial hpos)
    (fun _ r₁ _ hsize₁ => capped_self ?_) fun _ r₁ => grows_of_tree_eq ?_
  · rw [run_conclude]
    exact hsize₁
  · rw [run_conclude]

end Planning

end EpistemicPlanning
