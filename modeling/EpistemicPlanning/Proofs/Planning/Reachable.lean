import EpistemicPlanning.Proofs.Planning.Rounds

/-!
# Reachable states of a run

The states that a run of the planner goes through between two expansions of nodes (`Run.Reachable`).
In all of them the tree is, apart from marks, one that the task unfolds into
(`Run.Reachable.unfolding`).
-/
namespace EpistemicPlanning

open SearchTree

variable {t : PlanningTask} {c : PlannerConfig} {r r' r₀ : Run} {ns rest : List NodeId}

namespace Run

open Planning

/-- A run that has begun a round and is about to expand a level, or done with all of them. -/
inductive Growing (t : PlanningTask) (c : PlannerConfig) : Run → Prop
  | begun {r : Run} (h : r.AtRound t c) : Growing t c { r with iterations := r.iterations + 1 }
  | level {r r' : Run} (h : Growing t c r) (hgrow : r.mayGrow = true)
      (hexec : exec (growLevel (t := t) c) r = (.ok ⟨⟩, r')) : Growing t c r'

/-- A run between two expansions of nodes. -/
inductive Reachable (t : PlanningTask) (c : PlannerConfig) : Run → Prop
  /-- Before a round. -/
  | atRound {r : Run} (h : r.AtRound t c) : Reachable t c r
  /-- Between levels. -/
  | growing {r : Run} (h : r.Growing t c) : Reachable t c r
  /-- Within a level, when some nodes of the frontier have been expanded. -/
  | expanding {r₀ r : Run} {ns rest : List NodeId} (h : r₀.Growing t c)
      (hgrow : r₀.mayGrow = true) (hsplit : r₀.frontier = ns ++ rest)
      (hexec : exec (ns.forM (expand (t := t) c)) r₀ = (.ok ⟨⟩, r)) : Reachable t c r
  /-- After a round, when the costs have been computed. -/
  | settled {r₀ r : Run} (h : r₀.AtRound t c)
      (hround : exec (round (t := t) c) r₀ = (.ok ⟨⟩, r)) : Reachable t c r

theorem Growing.atLevel (hacc : t.Accepted) (hr : r.Growing t c) : ∃ d h, r.AtLevel t d h := by
  induction hr with
  | begun hr =>
    obtain ⟨d, h, hlevel⟩ := hr.atLevel hacc
    exact ⟨d, h, hlevel.congr rfl rfl (Nat.le_refl _)⟩
  | level _ hgrow hexec ih =>
    obtain ⟨d, h, hlevel⟩ := ih
    have hd := ((hlevel.mayGrow_iff hacc).1 hgrow).2
    obtain ⟨⟨h', hlevel'⟩, _⟩ := atLevel_of_exec_growLevel hacc hlevel hd hexec
    exact ⟨d + 1, h', hlevel'⟩

theorem AtLevel.unfolding {d : Nat} {h : SearchTree} (hacc : t.Accepted) (hr : r.AtLevel t d h) :
    ∃ k, Unfolding t k [] h ∧ h.SameShape r.tree := by
  obtain ⟨k, hcut⟩ := PlanningTask.cutAt_of_unfoldTo hacc hr.unfolds
  exact ⟨k, hcut.unfolding, hr.sameShape.symm⟩

/-- Expanding the first nodes of a level leaves a tree that the task unfolds into. -/
theorem AtLevel.unfolding_of_exec {d : Nat} {h : SearchTree} (hacc : t.Accepted)
    (hr : r₀.AtLevel t d h) (hsplit : r₀.frontier = ns ++ rest)
    (hexec : exec (ns.forM (expand (t := t) c)) r₀ = (.ok ⟨⟩, r)) :
    ∃ k h', Unfolding t k [] h' ∧ h'.SameShape r.tree := by
  have hmem : ∀ n ∈ ns, n.index < r₀.tree.size ∧ (r₀.tree.node n).depth = d := by
    intro n hn
    refine hr.mem_frontier hacc ?_
    rw [hsplit]
    exact List.mem_append_left _ hn
  obtain ⟨hexp, _⟩ := expanding_of_exec_expandAll (expanding_self (hr.sound hacc)) hmem hexec
  obtain ⟨h', hexp', hsame⟩ := expandAll_congr hr.tree hexp
  obtain ⟨k, hcut⟩ := PlanningTask.cutAt_of_unfoldTo hacc hr.unfolds
  -- the expanded nodes are the first ones of the level
  rw [hr.frontier, hcut.level_eq] at hsplit
  obtain ⟨j, hkj, hjs, rfl⟩ := eq_idsFrom_of_append hcut.le hsplit
  obtain ⟨hfilling, _⟩ := hcut.filling.foldlM hacc hkj hjs hexp'
  exact ⟨j, h', hfilling.unfolding, (sameShape_of_uncosted hsame).symm⟩

theorem Reachable.unfolding (hacc : t.Accepted) (hr : r.Reachable t c) :
    ∃ k h, Unfolding t k [] h ∧ h.SameShape r.tree := by
  have hat : ∀ {r : Run}, (∃ d h, r.AtLevel t d h) →
      ∃ k h, Unfolding t k [] h ∧ h.SameShape r.tree := by
    intro r ⟨d, h, hlevel⟩
    obtain ⟨k, hunfolding⟩ := hlevel.unfolding hacc
    exact ⟨k, h, hunfolding⟩
  cases hr with
  | atRound hr => exact hat (hr.atLevel hacc)
  | growing hr => exact hat (hr.atLevel hacc)
  | expanding hr _ hsplit hexec =>
    obtain ⟨d, h, hlevel⟩ := hr.atLevel hacc
    exact hlevel.unfolding_of_exec hacc hsplit hexec
  | settled hr hround =>
    obtain ⟨h, hlevel⟩ := (hr.after hacc hround).level
    exact hat ⟨_, h, hlevel⟩

end Run

end EpistemicPlanning
