import Mathlib.Order.Bounds.Basic
import EpistemicPlanning.Proofs.Planning.Queue

/-!
# The order of the queue

The nodes are expanded in the order of their numbers, and the queue holds the rest of them
(`QueuedRun.InOrder`). The children of a node lie one level below it, at the bound or above, even
when the first goal world among them has just lowered the bound. A tree that has been built
therefore has its whole queue at the bound (`QueuedRun.InOrder.depth_of_done`). The depth of the
goal is the least depth with a goal world (`Run.Aimed`), and no step changes it once it is known
(`QueuedRun.goalDepth_of_steps`).
-/
namespace EpistemicPlanning

open SearchTree Planning

variable {t : PlanningTask} {α β : Type} {c : PlannerConfig} {r r' : Run} {q q' : QueuedRun}
variable {g g' : SearchTree} {n : NodeId} {rest : List NodeId} {d k : Nat} {action : Action}
variable {a : ActionId}

namespace SearchTree

/-! ### The depths at which the goal holds -/

/-- The depths below the root of the nodes with a goal world. -/
def goalDepths (t : PlanningTask) (g : SearchTree) : Set Nat :=
  {d | 1 ≤ d ∧ ∃ n, n.index < g.size ∧ (g.node n).depth = d ∧ g.HasGoal t n}

theorem goalDepths_ofTask : (ofTask t).goalDepths t = ∅ := by
  rw [Set.eq_empty_iff_forall_notMem]
  rintro d ⟨hpos, n, hn, hdepth, _⟩
  rw [(node_ofTask hn).1] at hdepth
  exact absurd hdepth (Nat.ne_of_lt hpos)

theorem goalDepths_subset (hext : g'.Extends g) (hs : g.Sound t) :
    g.goalDepths t ⊆ g'.goalDepths t := by
  rintro d ⟨hpos, n, hn, hdepth, hgoal⟩
  exact ⟨hpos, n, Nat.lt_of_lt_of_le hn hext.size, (hext.depth hn).trans hdepth,
    (hext.hasGoal_iff hs hn).2 hgoal⟩

theorem goalDepths_of_sameShape (hshape : g.SameShape g') (hs : g.Sound t) :
    g.goalDepths t = g'.goalDepths t :=
  (goalDepths_subset (.of_sameShape hshape.symm) hs).antisymm
    (goalDepths_subset (.of_sameShape hshape) (hs.of_sameShape hshape))

/-- Expanding a node adds at most the depth of its children. -/
theorem mem_goalDepths_expanded (hs : g.Sound t) (hn : n.index < g.size)
    (hexp : g.expanded t n = .ok g') :
    d ∈ g'.goalDepths t ↔
      d ∈ g.goalDepths t ∨ d = (g.node n).depth + 1 ∧ g'.GoalFrom t g.size := by
  obtain ⟨hext, hnew⟩ := extends_of_expanded hs hn hexp
  constructor
  · rintro ⟨hpos, m, hm, hdepth, hgoal⟩
    by_cases hold : m.index < g.size
    · exact Or.inl ⟨hpos, m, hold, (hext.depth hold).symm.trans hdepth,
        (hext.hasGoal_iff hs hold).1 hgoal⟩
    · have hle := Nat.le_of_not_lt hold
      exact Or.inr ⟨hdepth.symm.trans (hnew m hle hm), m, hle, hm, hgoal⟩
  · rintro (hd | ⟨rfl, m, hle, hm, hgoal⟩)
    · exact goalDepths_subset hext hs hd
    · exact ⟨Nat.le_add_left _ _, m, hm, hnew m hle hm, hgoal⟩

end SearchTree

namespace Run

/-- How the bound of a run follows from where the goal has been found. -/
inductive Aimed (t : PlanningTask) (c : PlannerConfig) (r : Run) : Prop
  | unseen (hgoal : r.goalDepth = none) (hlimit : r.limit = c.maxDepth)
      (hnone : r.tree.goalDepths t = ∅)
  | seen {d : Nat} (hgoal : r.goalDepth = some d) (hleast : IsLeast (r.tree.goalDepths t) d)
      (hle : d ≤ r.limit) (hlimit : r.limit ≤ c.maxDepth)

namespace Aimed

theorem limit_le (h : r.Aimed t c) : r.limit ≤ c.maxDepth := by
  cases h with
  | unseen _ hlimit _ => exact Nat.le_of_eq hlimit
  | seen _ _ _ hlimit => exact hlimit

/-- The bound is at the goal or below, and as deep as may be when the goal has not been found. -/
theorem le_limit (h : r.Aimed t c) : min (r.goalDepth.getD c.maxDepth) c.maxDepth ≤ r.limit := by
  cases h with
  | unseen _ hlimit _ =>
    rw [hlimit]
    exact Nat.min_le_right _ _
  | seen hgoal _ hle _ =>
    rw [hgoal]
    exact Nat.le_trans (Nat.min_le_left _ _) hle

theorem goalDepth_eq_some_iff (h : r.Aimed t c) :
    r.goalDepth = some d ↔ IsLeast (r.tree.goalDepths t) d := by
  cases h with
  | unseen hgoal _ hnone =>
    rw [hgoal, hnone]
    constructor
    · intro hsome
      cases hsome
    · intro hleast
      exact absurd hleast.1 (Set.notMem_empty d)
  | seen hgoal hleast _ _ =>
    rw [hgoal, Option.some_inj]
    constructor
    · rintro rfl
      exact hleast
    · exact hleast.unique

/-- Expanding a node above the bound keeps the aim, when no node lies below its children. -/
theorem expanded (h : r.Aimed t c) (hs : r.tree.Sound t) (hn : n.index < r.tree.size)
    (hexp : r.tree.expanded t n = .ok r'.tree) (habove : (r.tree.node n).depth < r.limit)
    (hdeepest : ∀ m, m.index < r.tree.size → (r.tree.node m).depth ≤ (r.tree.node n).depth + 1)
    (hnoted : r.Noted t (r.tree.node n).depth r.tree.size r') : r'.Aimed t c := by
  have hmem : ∀ {d}, d ∈ r'.tree.goalDepths t ↔ _ := mem_goalDepths_expanded hs hn hexp
  -- a goal that was found before lies in the tree, and so at the depth of the children or above
  cases hnoted with
  | before hfound hsame hlimit =>
    cases h with
    | unseen hgoal _ _ => exact absurd hgoal hfound
    | @seen d₀ hgoal hleast hle hbound =>
      refine .seen (hsame.trans hgoal) ⟨hmem.2 (Or.inl hleast.1), fun d hd => ?_⟩ (hlimit ▸ hle)
        (hlimit ▸ hbound)
      rcases hmem.1 hd with hd | ⟨rfl, _⟩
      · exact hleast.2 hd
      · obtain ⟨_, m, hm, rfl, _⟩ := hleast.1
        exact hdeepest m hm
  | nowhere hfound hgoal hlimit hno =>
    cases h with
    | unseen _ hbound hnone =>
      refine .unseen hgoal (hlimit.trans hbound) (Set.eq_empty_iff_forall_notMem.2 fun d hd => ?_)
      rcases hmem.1 hd with hd | ⟨_, hyes⟩
      · rw [hnone] at hd
        exact hd
      · exact hno hyes
    | seen hgoal _ _ _ => cases hgoal.symm.trans hfound
  | first hfound hgoal hlimit hyes =>
    cases h with
    | unseen _ hbound hnone =>
      refine .seen hgoal ⟨hmem.2 (Or.inr ⟨rfl, hyes⟩), fun d hd => ?_⟩ (by omega) (by omega)
      rcases hmem.1 hd with hd | ⟨rfl, _⟩
      · rw [hnone] at hd
        exact absurd hd (Set.notMem_empty d)
      · exact Nat.le_refl _
    | seen hgoal _ _ _ => cases hgoal.symm.trans hfound

end Aimed

theorem mayGrow_of_cons (h : r.frontier = n :: rest) :
    r.mayGrow = true ↔ (r.tree.node n).depth < r.limit := by
  unfold mayGrow
  rw [h]
  exact decide_eq_true_iff

end Run

namespace QueuedRun

/-- The first `k` nodes have been expanded in order, and the others wait in order. -/
structure InOrder (t : PlanningTask) (c : PlannerConfig) (k : Nat) (q : QueuedRun) : Prop where
  unfolded : q.run.tree.Unfolded t k []
  le : k ≤ q.run.tree.size
  expanded : q.expanded = idsFrom 0 k
  frontier : q.run.frontier = idsFrom k q.run.tree.size
  above : ∀ n, n.index < k → (q.run.tree.node n).depth < q.run.limit
  within : ∀ n, n.index < q.run.tree.size → (q.run.tree.node n).depth ≤ q.run.limit
  aimed : q.run.Aimed t c

theorem inOrder_initial (hacc : t.Accepted) : (initial t c).InOrder t c 0 where
  unfolded := unfolded_ofTask hacc
  le := Nat.zero_le _
  expanded := rfl
  frontier := rfl
  above _ hn := absurd hn (Nat.not_lt_zero _)
  within n hn := by
    change ((ofTask t).node n).depth ≤ c.maxDepth
    rw [(node_ofTask hn).1]
    exact Nat.zero_le _
  aimed := .unseen rfl rfl goalDepths_ofTask

namespace InOrder

/-- The first node of the queue is expanded, and its children wait behind all others. -/
theorem take {expanded : List NodeId} (h : InOrder t c k ⟨r, expanded⟩)
    (hfrontier : r.frontier = n :: rest) (habove : (r.tree.node n).depth < r.limit)
    (hexec : exec (expandAndQueue (t := t) c n) (r.withFrontier rest) = (.ok ⟨⟩, r')) :
    InOrder t c (k + 1) ⟨r', expanded ++ [n]⟩ := by
  have hqueue : idsFrom k r.tree.size = n :: rest := h.frontier.symm.trans hfrontier
  obtain ⟨hk, rfl, rfl⟩ := idsFrom_eq_cons hqueue
  obtain ⟨r₁, hexpand, rfl⟩ := exec_expandAndQueue_ok.1 hexec
  have hsound : r.tree.Sound t := h.unfolded.sound
  obtain ⟨hexp, hexpanding⟩ :=
    expanding_of_exec_expand (Run.expanding_self hsound) hk rfl hexpand
  obtain ⟨hext, hnew⟩ := extends_of_expanded hsound hk hexp
  have hdeepest := h.unfolded.deepest hk
  have hlimit := hexpanding.noted.lt_limit habove
  have hle : k + 1 ≤ r.tree.size := hk
  exact {
    unfolded := h.unfolded.expanded_next hk hexp
    le := Nat.le_trans hle hext.size
    expanded := by
      have hlast : idsFrom k (k + 1) = [⟨k⟩] := by
        rw [idsFrom_cons (Nat.lt_succ_self k), idsFrom_self]
      rw [← idsFrom_append (Nat.zero_le k) (Nat.le_succ k), hlast]
      exact congrArg (· ++ [_]) h.expanded
    frontier := idsFrom_append hle hext.size
    above := fun m hm => by
      have hle : m.index ≤ k := Nat.le_of_lt_succ hm
      have hin := Nat.lt_of_le_of_lt hle hk
      have hdepth := h.unfolded.breadthFirst.depth m ⟨k⟩ hle hk
      change (r₁.tree.node m).depth < r₁.limit
      rw [hext.depth hin]
      exact Nat.lt_of_le_of_lt hdepth hlimit
    within := fun m hm => by
      change (r₁.tree.node m).depth ≤ r₁.limit
      by_cases hold : m.index < r.tree.size
      · rw [hext.depth hold]
        exact Nat.le_trans (hdeepest m hold) hlimit
      · rw [hnew m (Nat.le_of_not_lt hold) hm]
        exact hlimit
    aimed := by
      have haimed := h.aimed.expanded hsound hk hexp habove hdeepest hexpanding.noted
      cases haimed with
      | unseen hgoal hlimit hnone => exact .unseen hgoal hlimit hnone
      | seen hgoal hleast hle hlimit => exact .seen hgoal hleast hle hlimit }

/-- When a tree has been built, all nodes at the bound are in the queue. -/
theorem mem_frontier_of_depth (h : q.InOrder t c k) (hn : n.index < q.run.tree.size)
    (hdepth : (q.run.tree.node n).depth = q.run.limit) : n ∈ q.run.frontier := by
  rw [h.frontier, mem_idsFrom]
  refine ⟨Nat.le_of_not_lt fun hlt => ?_, hn⟩
  exact absurd hdepth (Nat.ne_of_lt (h.above n hlt))

theorem exec_settleAt_leaves (h : q.InOrder t c k) :
    exec (settleAt (t := t) q.run.leaves) q.run = exec (settle (t := t)) q.run :=
  exec_settleAt fun _ hn hdepth => h.mem_frontier_of_depth hn hdepth

theorem deepen {expanded : List NodeId} (h : InOrder t c k ⟨r, expanded⟩)
    (hsettle : exec (settleAt (t := t) r.leaves) r = (.ok ⟨⟩, r'))
    (hlimit : r'.limit < c.maxDepth) :
    InOrder t c k
      ⟨{ r' with limit := r'.limit + 1, iterations := r'.iterations + 1 }, expanded⟩ := by
  obtain ⟨tree, hcosts, rfl⟩ := exec_settle_ok (h.exec_settleAt_leaves.symm.trans hsettle)
  have hshape := (sameShape_withCosts hcosts).symm
  have hlimit : r.limit < c.maxDepth := hlimit
  exact {
    unfolded := h.unfolded.of_sameShape hshape
    le := hshape.size ▸ h.le
    expanded := h.expanded
    frontier := h.frontier.trans (congrArg (idsFrom k) hshape.size)
    above := fun m hm => by
      change (tree.node m).depth < r.limit + 1
      rw [← hshape.depth]
      exact Nat.lt_succ_of_lt (h.above m hm)
    within := fun m hm => by
      change (tree.node m).depth ≤ r.limit + 1
      rw [← hshape.depth]
      exact Nat.le_succ_of_le (h.within m (hshape.size.symm ▸ hm))
    aimed := by
      -- with the bound below its maximum, the goal has been found
      cases h.aimed with
      | unseen _ hmax _ => exact absurd hmax (Nat.ne_of_lt hlimit)
      | seen hgoal hleast hle _ =>
        rw [goalDepths_of_sameShape hshape h.unfolded.sound] at hleast
        exact .seen hgoal hleast (Nat.le_succ_of_le hle) hlimit }

theorem step (h : q.InOrder t c k) (hstep : Step t c q q') : ∃ j, q'.InOrder t c j := by
  cases hstep with
  | take hfrontier habove hexec => exact ⟨k + 1, h.take hfrontier habove hexec⟩
  | deepen _ hsettle _ _ hlimit => exact ⟨k, h.deepen hsettle hlimit⟩

/-- When a tree has been built, its queue is at the bound. -/
theorem depth_of_done (h : q.InOrder t c k) (hdone : q.run.mayGrow = false)
    (hn : n ∈ q.run.frontier) : (q.run.tree.node n).depth = q.run.limit := by
  have hmem := hn
  rw [h.frontier, mem_idsFrom] at hmem
  obtain ⟨hle, hin⟩ := hmem
  refine Nat.le_antisymm (h.within n hin) ?_
  -- the queue begins with its shallowest node
  have hk : k < q.run.tree.size := Nat.lt_of_le_of_lt hle hin
  have hhead := Run.mayGrow_of_cons (h.frontier.trans (idsFrom_cons hk))
  rw [hdone] at hhead
  have hbound : q.run.limit ≤ (q.run.tree.node ⟨k⟩).depth :=
    Nat.le_of_not_lt fun hlt => nomatch hhead.2 hlt
  exact Nat.le_trans hbound (h.unfolded.breadthFirst.depth ⟨k⟩ n hle hin)

theorem mem_expanded (h : q.InOrder t c k) : n ∈ q.expanded ↔ n.index < k := by
  rw [h.expanded, mem_idsFrom]
  exact ⟨fun hn => hn.2, fun hn => ⟨Nat.zero_le _, hn⟩⟩

theorem count_expanded (h : q.InOrder t c k) (hn : n.index < k) : q.expanded.count n = 1 := by
  refine List.count_eq_one_of_mem ?_ (h.mem_expanded.2 hn)
  rw [h.expanded]
  exact nodup_idsFrom 0 k

theorem expandedBy (h : q.InOrder t c k) (hn : n ∈ q.expanded) :
    q.run.tree.ExpandedBy t n t.numbered := by
  have hlt := h.mem_expanded.1 hn
  exact h.unfolded.expanded n (Nat.lt_of_lt_of_le hlt h.le) hlt

theorem children_eq_nil (h : q.InOrder t c k) (hn : n ∈ q.run.frontier) :
    (q.run.tree.node n).children = [] := by
  rw [h.frontier, mem_idsFrom] at hn
  obtain ⟨hle, hin⟩ := hn
  rcases Nat.eq_or_lt_of_le hle with rfl | hlt
  · exact List.map_eq_nil_iff.1 (h.unfolded.current hin).actions
  · exact h.unfolded.later n hin hlt

end InOrder

theorem Reached.inOrder (hacc : t.Accepted) (h : q.Reached t c) : ∃ k, q.InOrder t c k := by
  induction h with
  | refl => exact ⟨0, inOrder_initial hacc⟩
  | tail _ hstep ih =>
    obtain ⟨k, hk⟩ := ih
    exact hk.step hstep

theorem Reached.exec_settleAt_leaves (hacc : t.Accepted) (h : q.Reached t c) :
    exec (settleAt (t := t) q.run.leaves) q.run = exec (settle (t := t)) q.run := by
  obtain ⟨k, hk⟩ := h.inOrder hacc
  exact hk.exec_settleAt_leaves

end QueuedRun

/-! ### The depth of the goal is kept -/

namespace Planning

/-- A step that keeps the depth of the goal, also when it fails. -/
def KeepsGoal (d : Nat) (x : Planning t α) : Prop :=
  ∀ r, r.goalDepth = some d → (exec x r).2.goalDepth = some d

theorem KeepsGoal.bind {x : Planning t α} {f : α → Planning t β} (hx : KeepsGoal d x)
    (hf : ∀ a, KeepsGoal d (f a)) : KeepsGoal d (x >>= f) := fun r =>
  Preserves.bind (I := fun r => r.goalDepth = some d) (hx r) fun a => hf a

theorem keepsGoal_get {f : Run → Planning t β}
    (h : ∀ r, r.goalDepth = some d → (exec (f r) r).2.goalDepth = some d) :
    KeepsGoal d (get >>= f) := h

theorem keepsGoal_of_eq {x : Planning t α} (h : ∀ r, (exec x r).2.goalDepth = r.goalDepth) :
    KeepsGoal d x := fun r hr => (h r).trans hr

theorem keepsGoal_ofExcept (x : Except ModelError α) : KeepsGoal d (ofExcept (t := t) x) :=
  keepsGoal_of_eq fun _ => rfl

theorem keepsGoal_ofUpdating (x : Updating t α) : KeepsGoal d (ofUpdating x) :=
  keepsGoal_of_eq fun _ => rfl

theorem keepsGoal_modify {f : Run → Run} (h : ∀ r, (f r).goalDepth = r.goalDepth) :
    KeepsGoal d (modify f : Planning t PUnit) := keepsGoal_of_eq h

theorem keepsGoal_watchGoal (next : State) (depth : Nat) :
    KeepsGoal d (watchGoal (t := t) next depth) := by
  refine keepsGoal_get fun r hr => ?_
  rw [hr]
  exact hr

theorem keepsGoal_forM {f : α → Planning t PUnit} {l : List α} (hf : ∀ x, KeepsGoal d (f x)) :
    KeepsGoal d (l.forM f) := fun _ =>
  preserves_forM (I := fun r => r.goalDepth = some d) hf

/-- Once the goal has been found, no attempt changes the depth at which it was. -/
theorem keepsGoal_tryAction : KeepsGoal d (tryAction (t := t) c n action a) := by
  refine keepsGoal_get fun r hr => ?_
  refine (keepsGoal_ofExcept _).bind (fun seen => (keepsGoal_ofUpdating _).bind fun app => ?_) r hr
  cases app with
  | false => exact keepsGoal_of_eq fun _ => rfl
  | true =>
    simp only [if_true]
    split
    · exact keepsGoal_of_eq fun _ => rfl
    · refine (keepsGoal_of_eq fun _ => rfl).bind fun next? => ?_
      cases next? with
      | none => exact keepsGoal_of_eq fun _ => rfl
      | some next =>
        exact (keepsGoal_watchGoal next _).bind fun _ => keepsGoal_modify fun _ => rfl

theorem keepsGoal_tryAndQueue : KeepsGoal d (tryAndQueue (t := t) c n action a) := by
  unfold tryAndQueue
  refine keepsGoal_get fun r hr => ?_
  refine keepsGoal_tryAction.bind (fun _ => ?_) r hr
  exact keepsGoal_modify fun _ => rfl

theorem keepsGoal_expandAndQueue : KeepsGoal d (expandAndQueue (t := t) c n) :=
  keepsGoal_forM fun _ => keepsGoal_tryAndQueue

theorem keepsGoal_settleAt (leaves : SortedSet NodeId) :
    KeepsGoal d (settleAt (t := t) leaves) := by
  unfold settleAt
  refine keepsGoal_get fun r hr => ?_
  refine (keepsGoal_ofUpdating _).bind (fun standings => ?_) r hr
  exact fun _ _ => hr

end Planning

namespace QueuedRun

theorem Step.goalDepth (h : Step t c q q') (hgoal : q.run.goalDepth = some d) :
    q'.run.goalDepth = some d := by
  cases h with
  | @take r r' _ n rest _ _ hexec =>
    have hkept := keepsGoal_expandAndQueue (t := t) (c := c) (n := n) (r.withFrontier rest) hgoal
    rwa [hexec] at hkept
  | @deepen r r' _ _ hsettle _ _ _ =>
    have hkept := keepsGoal_settleAt (t := t) r.leaves r hgoal
    rwa [hsettle] at hkept

theorem goalDepth_of_steps (h : Relation.ReflTransGen (Step t c) q q')
    (hgoal : q.run.goalDepth = some d) : q'.run.goalDepth = some d := by
  induction h with
  | refl => exact hgoal
  | tail _ hstep ih => exact hstep.goalDepth ih

end QueuedRun

end EpistemicPlanning
