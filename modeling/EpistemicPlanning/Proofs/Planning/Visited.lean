import EpistemicPlanning.Proofs.Planning.Reachable
import EpistemicPlanning.Proofs.SearchTree.Alignment

/-!
# Runs between two attempts

A run of the planner is visited when it is about to expand a node, about to try an action at a node
of its frontier, or about to compute costs (`Run.Visited`). The trees of visited runs are sound and
well formed. When the initial state has a designated world, so have all their nodes
(`Run.Visited.exists_designated`), and all worlds that have been made belong to nodes
(`Run.Visited.owned`).
-/
namespace EpistemicPlanning

open SearchTree

variable {t : PlanningTask} {c : PlannerConfig} {r : Run} {g g' : SearchTree} {n : NodeId}
variable {p : Action × ActionId} {l : List (Action × ActionId)} {k : Nat} {w : WorldId}

namespace SearchTree

theorem Unfolding.extends_ofTask (hacc : t.Accepted) (h : Unfolding t k l g) :
    g.Extends (ofTask t) := by
  induction h with
  | root => exact .refl _
  | sprout h hk hp hsprout ih =>
    exact ((h.sound hacc).extends_of_sprout hk (action?_of_tried hp) hsprout).trans ih
  | next _ _ ih => exact ih

theorem aligned_of_sproutAll (hal : g.Aligned t) (hn : n.index < g.size)
    (hl : ∀ p ∈ l, t.action? p.2 = some p.1)
    (hsprout : l.foldlM (SearchTree.sprout t n) g = .ok g') : g'.Aligned t := by
  refine (Fallible.foldlM_inv (fun f : SearchTree => f.Aligned t ∧ n.index < f.size) ⟨hal, hn⟩
    (fun p hp f f' hf hsprout => ⟨?_, Nat.lt_of_lt_of_le hf.2 (size_le_of_sprout hsprout)⟩)
    hsprout).1
  rcases sprout_cases hsprout with ⟨_, _, rfl⟩ | ⟨next, arena, hperform, rfl⟩
  · exact hf.1
  · exact hf.1.grown hf.2 (hl p hp) hperform

/-- Trying actions at a node keeps a tree sound and well formed. -/
theorem keeps_of_sproutAll (hs : g.Sound t) (hwf : g.WellFormed t) (hn : n.index < g.size)
    (hl : ∀ p ∈ l, t.action? p.2 = some p.1)
    (hsprout : l.foldlM (SearchTree.sprout t n) g = .ok g') : g'.Sound t ∧ g'.WellFormed t := by
  have hkept := Fallible.foldlM_inv
    (fun f : SearchTree => f.Sound t ∧ f.WellFormed t ∧ n.index < f.size) ⟨hs, hwf, hn⟩
    (fun p hp f f' ⟨hs, hwf, hn⟩ hsprout => ⟨hs.sprout hn (hl p hp) hsprout,
      hwf.sprout hn (hl p hp) hsprout, Nat.lt_of_lt_of_le hn (size_le_of_sprout hsprout)⟩)
    hsprout
  exact ⟨hkept.1, hkept.2.1⟩

end SearchTree

namespace Run

open Planning

/-- A run between two attempts to take an action. -/
inductive Visited (t : PlanningTask) (c : PlannerConfig) : Run → Prop
  /-- Between two expansions of nodes. -/
  | reachable {r : Run} (h : r.Reachable t c) : Visited t c r
  /-- While a node of the frontier is expanded: the actions in `before` have been tried. -/
  | trying {r₀ r₁ r : Run} {n : NodeId} {ns rest : List NodeId}
      {before after : List (Action × ActionId)} (h : r₀.Growing t c) (hgrow : r₀.mayGrow = true)
      (hsplit : r₀.frontier = ns ++ n :: rest)
      (hexpanded : exec (ns.forM (expand (t := t) c)) r₀ = (.ok ⟨⟩, r₁))
      (hactions : t.numbered = before ++ after)
      (htried : exec (before.forM fun p => tryAction (t := t) c n p.1 p.2) r₁ = (.ok ⟨⟩, r)) :
      Visited t c r

theorem Reachable.sound (hacc : t.Accepted) (hr : r.Reachable t c) : r.tree.Sound t := by
  obtain ⟨k, h, hunfolding, hshape⟩ := hr.unfolding hacc
  exact (hunfolding.sound hacc).of_sameShape hshape

theorem Reachable.keeps (hacc : t.Accepted) (hfresh : t.arena.Fresh) (hr : r.Reachable t c) :
    r.tree.Sound t ∧ r.tree.WellFormed t := by
  obtain ⟨k, h, hunfolding, hshape⟩ := hr.unfolding hacc
  exact ⟨hr.sound hacc, (hunfolding.wellFormed hacc hfresh).of_sameShape hshape⟩

theorem Growing.expanded_of_exec (hacc : t.Accepted) {r₀ : Run} {ns rest : List NodeId}
    (h : r₀.Growing t c) (hsplit : r₀.frontier = ns ++ rest)
    (hexec : exec (ns.forM (expand (t := t) c)) r₀ = (.ok ⟨⟩, r)) :
    r₀.tree.expandAll t ns = .ok r.tree ∧ r.iterations = r₀.iterations := by
  obtain ⟨d, f, hlevel⟩ := h.atLevel hacc
  have hmem : ∀ m ∈ ns, m.index < r₀.tree.size ∧ (r₀.tree.node m).depth = d := fun m hm =>
    hlevel.mem_frontier hacc (hsplit ▸ List.mem_append_left _ hm)
  obtain ⟨hexp, hexpanding⟩ :=
    expanding_of_exec_expandAll (expanding_self (hlevel.sound hacc)) hmem hexec
  exact ⟨hexp, hexpanding.iterations⟩

/-- The nodes of the frontier stay in the tree while those before them are expanded. -/
theorem Growing.lt_size_of_exec (hacc : t.Accepted) {r₀ : Run} {ns rest : List NodeId}
    (h : r₀.Growing t c) (hsplit : r₀.frontier = ns ++ n :: rest)
    (hexec : exec (ns.forM (expand (t := t) c)) r₀ = (.ok ⟨⟩, r)) : n.index < r.tree.size := by
  obtain ⟨d, f, hlevel⟩ := h.atLevel hacc
  have hmem : n ∈ r₀.frontier := by
    rw [hsplit]
    exact List.mem_append_right _ List.mem_cons_self
  obtain ⟨hin, _⟩ := hlevel.mem_frontier hacc hmem
  obtain ⟨hexp, _⟩ := h.expanded_of_exec hacc hsplit hexec
  exact Nat.lt_of_lt_of_le hin (size_le_of_expandAll hexp)

/-- What has been tried at a node of the frontier while it is expanded has made its children. -/
theorem Growing.sprouted_of_exec (hacc : t.Accepted) {r₀ r₁ : Run} {ns rest : List NodeId}
    {before after : List (Action × ActionId)} (h : r₀.Growing t c) (hgrow : r₀.mayGrow = true)
    (hsplit : r₀.frontier = ns ++ n :: rest)
    (hexpanded : exec (ns.forM (expand (t := t) c)) r₀ = (.ok ⟨⟩, r₁))
    (hactions : t.numbered = before ++ after)
    (htried : exec (before.forM fun p => tryAction (t := t) c n p.1 p.2) r₁ = (.ok ⟨⟩, r)) :
    n.index < r₁.tree.size ∧ (∀ p ∈ before, t.action? p.2 = some p.1) ∧
      before.foldlM (sprout t n) r₁.tree = .ok r.tree ∧ r.tree.Sound t := by
  have hs := (Reachable.expanding h hgrow hsplit hexpanded).sound hacc
  have hn := h.lt_size_of_exec hacc hsplit hexpanded
  have hl : ∀ p ∈ before, t.action? p.2 = some p.1 := by
    intro p hp
    refine PlanningTask.mem_numbered.1 ?_
    rw [hactions]
    exact List.mem_append_left _ hp
  obtain ⟨hsprout, hexpanding⟩ := expanding_of_exec_tryAll (expanding_self hs) hn rfl hl htried
  exact ⟨hn, hl, hsprout, hexpanding.sound⟩

/-- The tree of a visited run is sound, whatever the arena of the task. -/
theorem Visited.sound (hacc : t.Accepted) (hr : r.Visited t c) : r.tree.Sound t := by
  cases hr with
  | reachable h => exact h.sound hacc
  | trying h hgrow hsplit hexpanded hactions htried =>
    exact (h.sprouted_of_exec hacc hgrow hsplit hexpanded hactions htried).2.2.2

/-- The tree of a visited run is sound and well formed. -/
theorem Visited.keeps (hacc : t.Accepted) (hfresh : t.arena.Fresh) (hr : r.Visited t c) :
    r.tree.Sound t ∧ r.tree.WellFormed t := by
  cases hr with
  | reachable h => exact h.keeps hacc hfresh
  | trying h hgrow hsplit hexpanded hactions htried =>
    obtain ⟨hs, hwf⟩ := (Reachable.expanding h hgrow hsplit hexpanded).keeps hacc hfresh
    obtain ⟨hn, hl, hsprout, _⟩ :=
      h.sprouted_of_exec hacc hgrow hsplit hexpanded hactions htried
    exact keeps_of_sproutAll hs hwf hn hl hsprout

/-- The initial state stays at the root. -/
theorem Visited.extends_ofTask (hacc : t.Accepted) (hr : r.Visited t c) :
    r.tree.Extends (ofTask t) := by
  have hreachable : ∀ {r : Run}, r.Reachable t c → r.tree.Extends (ofTask t) := by
    intro r hr
    obtain ⟨k, h, hunfolding, hshape⟩ := hr.unfolding hacc
    exact (Extends.of_sameShape hshape.symm).trans (hunfolding.extends_ofTask hacc)
  cases hr with
  | reachable h => exact hreachable h
  | trying h hgrow hsplit hexpanded hactions htried =>
    have hbefore := Reachable.expanding h hgrow hsplit hexpanded
    obtain ⟨hn, hl, hsprout, _⟩ :=
      h.sprouted_of_exec hacc hgrow hsplit hexpanded hactions htried
    exact (depth_of_sproutAll (hbefore.sound hacc) hn hl hsprout).1.trans (hreachable hbefore)

theorem Visited.aligned (hacc : t.Accepted) (hfresh : t.arena.Fresh) (hr : r.Visited t c) :
    r.tree.Aligned t := by
  have hreachable : ∀ {r : Run}, r.Reachable t c → r.tree.Aligned t := by
    intro r hr
    obtain ⟨k, h, hunfolding, hshape⟩ := hr.unfolding hacc
    exact (hunfolding.aligned hfresh).of_sameShape hshape
  cases hr with
  | reachable h => exact hreachable h
  | trying h hgrow hsplit hexpanded hactions htried =>
    obtain ⟨hn, hl, hsprout, _⟩ :=
      h.sprouted_of_exec hacc hgrow hsplit hexpanded hactions htried
    exact aligned_of_sproutAll (hreachable (.expanding h hgrow hsplit hexpanded)) hn hl hsprout

/-- When there is a designated world to begin with, there is one in each node. -/
theorem Visited.exists_designated (hacc : t.Accepted) (hfresh : t.arena.Fresh)
    (hdes : ∃ w, w ∈ t.initial.designated) (hr : r.Visited t c) (hn : n.index < r.tree.size) :
    ∃ w, w ∈ (r.tree.node n).state.designated := by
  by_cases hroot : n = root
  · have hin : root.index < (ofTask t).size := Nat.one_pos
    rw [hroot, (hr.extends_ofTask hacc).designated hin]
    exact hdes
  · exact (hr.keeps hacc hfresh).2.designated n hn hroot

/-- Each world is an initial one or belongs to a node. -/
theorem Visited.owned (hacc : t.Accepted) (hfresh : t.arena.Fresh) (hr : r.Visited t c)
    (hw : w.index < r.tree.arena.worlds.size) :
    w.index < t.arena.worlds.size ∨
      ∃ n, n.index < r.tree.size ∧ w ∈ (r.tree.node n).state.possible := by
  by_cases hinitial : w.index < t.arena.worlds.size
  · exact Or.inl hinitial
  · right
    obtain ⟨e, he, hchild⟩ :=
      (hr.aligned hacc hfresh).exists_edge (Nat.le_of_not_lt hinitial) hw
    obtain ⟨n, m, _, hm, hjoin⟩ := (hr.keeps hacc hfresh).2.edge e he
    exact ⟨m, hm, hchild ▸ hjoin.target⟩

end Run

end EpistemicPlanning
