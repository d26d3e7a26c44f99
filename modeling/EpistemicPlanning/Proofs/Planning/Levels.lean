import EpistemicPlanning.Proofs.Planning.Unfolding

/-!
# Growing to the bound

Growing a run takes its tree down to its bound (`Planning.atLevel_of_exec_grow`). On the way the
bound is lowered to the first new level that has a goal world (`Run.Finds`).
-/
namespace EpistemicPlanning

open SearchTree

variable {t : PlanningTask} {c : PlannerConfig} {r r' r₀ r₁ : Run} {g g' h h' : SearchTree}
variable {n : NodeId} {d j k s levels : Nat}

namespace PlanningTask

/-- Whether the goal holds at some world of a node at a depth. -/
def hasGoalAt (t : PlanningTask) (d : Nat) : Bool :=
  match t.unfoldTo d with
  | .ok g => (g.level d).any fun n => (g.node n).state.possible.any fun w =>
    t.goal.evaluate g.arena (g.node n).state w = .ok true
  | .error _ => false

theorem hasGoalAt_iff (hg : t.unfoldTo d = .ok g) (hcut : CutAt t d k g) :
    t.hasGoalAt d = true ↔ g.GoalFrom t k := by
  unfold hasGoalAt GoalFrom
  rw [hg]
  dsimp only
  rw [List.any_eq_true, hcut.level_eq]
  constructor
  · rintro ⟨n, hn, hgoal⟩
    obtain ⟨w, hw, heval⟩ := List.any_eq_true.1 hgoal
    obtain ⟨hle, hlt⟩ := mem_idsFrom.1 hn
    exact ⟨n, hle, hlt, w, hw, of_decide_eq_true heval⟩
  · rintro ⟨n, hle, hlt, w, hw, heval⟩
    refine ⟨n, mem_idsFrom.2 ⟨hle, hlt⟩, List.any_eq_true.2 ⟨w, hw, ?_⟩⟩
    exact decide_eq_true heval

/-- Below an empty level the tree does not change. -/
theorem unfoldTo_of_level_nil (hacc : t.Accepted) (hg : t.unfoldTo d = .ok g)
    (hnil : g.level d = []) (hle : d ≤ j) : t.unfoldTo j = .ok g ∧ g.level j = [] := by
  induction hle with
  | refl => exact ⟨hg, hnil⟩
  | @step j _ ih =>
    obtain ⟨hg, hnil⟩ := ih
    have hnext : t.unfoldTo (j + 1) = .ok g := by
      rw [unfoldTo, hg]
      change (g.level j).foldlM _ g = _
      rw [hnil]
      rfl
    obtain ⟨k, hcut⟩ := cutAt_of_unfoldTo hacc hg
    refine ⟨hnext, List.filter_eq_nil_iff.2 fun n hn => ?_⟩
    have hle := hcut.depth_le (mem_nodeIds.1 hn)
    simp only [decide_eq_true_eq]
    omega

theorem hasGoalAt_of_level_nil (hg : t.unfoldTo d = .ok g) (hnil : g.level d = []) :
    t.hasGoalAt d = false := by
  unfold hasGoalAt
  rw [hg]
  dsimp only
  rw [hnil]
  rfl

end PlanningTask

namespace Run

/-- A run whose tree is unfolded to depth `d`, which its frontier is at. -/
structure AtLevel (t : PlanningTask) (d : Nat) (h : SearchTree) (r : Run) : Prop where
  unfolds : t.unfoldTo d = .ok h
  tree : r.tree.uncosted = h.uncosted
  frontier : r.frontier = h.level d
  bound : d ≤ r.limit

theorem atLevel_initial : (Run.initial t c).AtLevel t 0 (ofTask t) where
  unfolds := rfl
  tree := rfl
  frontier := rfl
  bound := Nat.zero_le _

/-- Costs, counters and a higher bound do not matter. -/
theorem AtLevel.congr (hr : r.AtLevel t d h) (htree : r'.tree.uncosted = r.tree.uncosted)
    (hfrontier : r'.frontier = r.frontier) (hlimit : r.limit ≤ r'.limit) : r'.AtLevel t d h where
  unfolds := hr.unfolds
  tree := htree.trans hr.tree
  frontier := hfrontier.trans hr.frontier
  bound := Nat.le_trans hr.bound hlimit

theorem AtLevel.sameShape (hr : r.AtLevel t d h) : r.tree.SameShape h :=
  sameShape_of_uncosted hr.tree

theorem AtLevel.sound (hacc : t.Accepted) (hr : r.AtLevel t d h) : r.tree.Sound t := by
  obtain ⟨_, hcut⟩ := PlanningTask.cutAt_of_unfoldTo hacc hr.unfolds
  exact (hcut.unfolding.sound hacc).of_sameShape hr.sameShape.symm

theorem AtLevel.mem_frontier (hacc : t.Accepted) (hr : r.AtLevel t d h) (hn : n ∈ r.frontier) :
    n.index < r.tree.size ∧ (r.tree.node n).depth = d := by
  obtain ⟨k, hcut⟩ := PlanningTask.cutAt_of_unfoldTo hacc hr.unfolds
  rw [hr.frontier, hcut.level_eq] at hn
  obtain ⟨hle, hlt⟩ := mem_idsFrom.1 hn
  rw [hr.sameShape.size, hr.sameShape.depth]
  exact ⟨hlt, hcut.deepest n hle hlt⟩

/-- The frontier has to be expanded when it is above the bound and not empty. -/
theorem AtLevel.mayGrow_iff (hacc : t.Accepted) (hr : r.AtLevel t d h) :
    r.mayGrow = true ↔ r.frontier ≠ [] ∧ d < r.limit := by
  unfold mayGrow
  cases hfrontier : r.frontier with
  | nil => simp
  | cons n ns =>
    obtain ⟨_, hdepth⟩ := hr.mem_frontier hacc (hfrontier ▸ List.mem_cons_self : n ∈ r.frontier)
    simp [hdepth]

/-- What a run finds of the goal below depth `d` while it grows to its bound. -/
inductive Finds (t : PlanningTask) (d : Nat) (r r' : Run) : Prop
  | before (hfound : r.goalDepth ≠ none) (hgoal : r'.goalDepth = r.goalDepth)
      (hlimit : r'.limit = r.limit)
  | nowhere (hfound : r.goalDepth = none) (hgoal : r'.goalDepth = none)
      (hlimit : r'.limit = r.limit) (hnone : ∀ j, d < j → j ≤ r.limit → t.hasGoalAt j = false)
  | first (hfound : r.goalDepth = none) (hgoal : r'.goalDepth = some r'.limit)
      (hbelow : d < r'.limit) (hbound : r'.limit ≤ r.limit)
      (hhere : t.hasGoalAt r'.limit = true)
      (habove : ∀ j, d < j → j < r'.limit → t.hasGoalAt j = false)

theorem finds_self (hnone : ∀ j, d < j → j ≤ r.limit → t.hasGoalAt j = false) : r.Finds t d r := by
  by_cases hfound : r.goalDepth = none
  · exact .nowhere hfound hfound rfl hnone
  · exact .before hfound rfl rfl

theorem Finds.step (hlevel : r.Noted t d s r₁) (hd : d < r.limit)
    (hgoal : t.hasGoalAt (d + 1) = true ↔ r₁.tree.GoalFrom t s) (hrest : r₁.Finds t (d + 1) r') :
    r.Finds t d r' := by
  -- whether a goal world has been seen after the level decides what the later levels can find
  cases hlevel with
  | before hfound hsame hlimit =>
    cases hrest with
    | before _ hsame' hlimit' =>
      exact .before hfound (hsame'.trans hsame) (hlimit'.trans hlimit)
    | nowhere hnone _ _ _ => exact absurd (hsame.symm.trans hnone) hfound
    | first hnone _ _ _ _ _ => exact absurd (hsame.symm.trans hnone) hfound
  | nowhere hfound hunseen hlimit hno =>
    have hnext : t.hasGoalAt (d + 1) = false := Bool.eq_false_iff.2 fun hyes => hno (hgoal.1 hyes)
    have hsplit : ∀ j, d < j → j = d + 1 ∨ d + 1 < j := by omega
    cases hrest with
    | before hsome _ _ => exact absurd hunseen hsome
    | nowhere _ hunseen' hlimit' hnone =>
      refine .nowhere hfound hunseen' (hlimit'.trans hlimit) fun j hj hle => ?_
      rcases hsplit j hj with rfl | hj
      · exact hnext
      · exact hnone j hj (hlimit ▸ hle)
    | first _ hseen hbelow hbound hhere habove =>
      refine .first hfound hseen (by omega) (hlimit ▸ hbound) hhere fun j hj hlt => ?_
      rcases hsplit j hj with rfl | hj
      · exact hnext
      · exact habove j hj hlt
  | first hfound hseen hlimit hyes =>
    have hlowered : r₁.limit = d + 1 := by omega
    cases hrest with
    | before _ hsame' hlimit' =>
      -- the bound has been lowered to this level, so there are no later ones
      rw [hlowered] at hlimit'
      refine .first hfound ?_ (by omega) (by omega) ?_ fun j hj hlt => ?_
      · rw [hsame', hseen, hlimit']
      · rw [hlimit']
        exact hgoal.2 hyes
      · omega
    | nowhere hnone _ _ _ => cases hseen.symm.trans hnone
    | first hnone _ _ _ _ _ => cases hseen.symm.trans hnone

end Run

namespace Planning

open Run

/-- Expanding the frontier takes a run to the next level. -/
theorem atLevel_of_exec_growLevel (hacc : t.Accepted) (hr : r.AtLevel t d h) (hd : d < r.limit)
    (hexec : exec (growLevel (t := t) c) r = (.ok ⟨⟩, r')) :
    (∃ h', r'.AtLevel t (d + 1) h') ∧ r.Noted t d r.tree.size r' ∧
      (t.hasGoalAt (d + 1) = true ↔ r'.tree.GoalFrom t r.tree.size) ∧
      r'.iterations = r.iterations := by
  unfold growLevel growLevelBy at hexec
  obtain ⟨_, _, hget, hexec⟩ := exec_bind_ok hexec
  cases hget
  obtain ⟨_, r₁, hloop, hexec⟩ := exec_bind_ok hexec
  cases hexec
  obtain ⟨hexp, hexpanding⟩ := expanding_of_exec_expandAll (expanding_self (hr.sound hacc))
    (fun n hn => hr.mem_frontier hacc hn) hloop
  -- the nodes of the frontier are expanded in the same way when the tree is unfolded
  obtain ⟨k, hcut⟩ := PlanningTask.cutAt_of_unfoldTo hacc hr.unfolds
  obtain ⟨h', hexp', hsame⟩ := expandAll_congr hr.tree hexp
  rw [hr.frontier] at hexp'
  have hunfold : t.unfoldTo (d + 1) = .ok h' := by
    rw [PlanningTask.unfoldTo, hr.unfolds]
    exact hexp'
  rw [hcut.level_eq] at hexp'
  have hcut' := (hcut.filling.fill hacc hexp').1.cutAt
  have hshape := sameShape_of_uncosted hsame
  have hsize := hr.sameShape.size
  have hgoal : t.hasGoalAt (d + 1) = true ↔ r₁.tree.GoalFrom t r.tree.size := by
    rw [PlanningTask.hasGoalAt_iff hunfold hcut', hsize]
    exact (goalFrom_of_sameShape hshape hexpanding.sound).symm
  refine ⟨⟨h', hunfold, hsame, ?_, hexpanding.noted.lt_limit hd⟩, ?_, hgoal, hexpanding.iterations⟩
  · rw [hcut'.level_eq, ← hsize, ← hshape.size]
    rfl
  · cases hexpanding.noted with
    | before hfound hsame hlimit => exact .before hfound hsame hlimit
    | nowhere hfound hunseen hlimit hno => exact .nowhere hfound hunseen hlimit hno
    | first hfound hseen hlimit hyes => exact .first hfound hseen hlimit hyes

theorem atLevel_of_exec_growLevels (hacc : t.Accepted) (hr : r.AtLevel t d h)
    (hfuel : r.limit ≤ d + levels)
    (hexec : exec (growLevels (t := t) c levels) r = (.ok ⟨⟩, r')) :
    (∃ h', r'.AtLevel t r'.limit h') ∧ r.Finds t d r' ∧ r'.iterations = r.iterations := by
  -- on the fuel: a level takes one, and the bound is at most lowered
  induction levels generalizing r d h with
  | zero =>
    cases hexec
    have hd : d = r'.limit := Nat.le_antisymm hr.bound hfuel
    refine ⟨⟨h, hd ▸ hr⟩, finds_self fun j hj hle => ?_, rfl⟩
    omega
  | succ levels ih =>
    rw [growLevels_succ] at hexec
    obtain ⟨_, _, hget, hexec⟩ := exec_bind_ok hexec
    cases hget
    split at hexec
    · next hmay =>
      obtain ⟨_, r₁, hlevel, hexec⟩ := exec_bind_ok hexec
      have hd := ((hr.mayGrow_iff hacc).1 hmay).2
      obtain ⟨⟨h₁, hr₁⟩, hnoted, hgoal, hcount⟩ := atLevel_of_exec_growLevel hacc hr hd hlevel
      have hfuel₁ : r₁.limit ≤ d + 1 + levels := by
        have hlimit := hnoted.limit_le
        omega
      obtain ⟨hdone, hfinds, hcount'⟩ := ih hr₁ hfuel₁ hexec
      exact ⟨hdone, hfinds.step hnoted hd hgoal, hcount'.trans hcount⟩
    · next hmay =>
      cases hexec
      rw [hr.mayGrow_iff hacc, Decidable.not_and_iff_or_not, not_not] at hmay
      rcases hmay with hempty | hbound
      · -- with an empty frontier, all further levels are empty
        rw [hr.frontier] at hempty
        have hall := fun j hle =>
          PlanningTask.unfoldTo_of_level_nil (j := j) hacc hr.unfolds hempty hle
        obtain ⟨hunfold, hnil⟩ := hall r'.limit hr.bound
        refine ⟨⟨h, hunfold, hr.tree, ?_, Nat.le_refl _⟩, finds_self fun j hj _ => ?_, rfl⟩
        · rw [hr.frontier, hempty, hnil]
        · obtain ⟨hunfold, hnil⟩ := hall j (Nat.le_of_lt hj)
          exact PlanningTask.hasGoalAt_of_level_nil hunfold hnil
      · have hd : d = r'.limit := Nat.le_antisymm hr.bound (Nat.le_of_not_lt hbound)
        refine ⟨⟨h, hd ▸ hr⟩, finds_self fun j hj hle => ?_, rfl⟩
        omega

/-- Growing takes a run to the level of its bound. -/
theorem atLevel_of_exec_grow (hacc : t.Accepted) (hr : r.AtLevel t d h)
    (hexec : exec (grow (t := t) c) r = (.ok ⟨⟩, r')) :
    (∃ h', r'.AtLevel t r'.limit h') ∧ r.Finds t d r' ∧ r'.iterations = r.iterations := by
  rw [grow_eq] at hexec
  obtain ⟨_, _, hget, hexec⟩ := exec_bind_ok hexec
  cases hget
  exact atLevel_of_exec_growLevels hacc hr (Nat.le_add_left _ _) hexec

end Planning

end EpistemicPlanning
