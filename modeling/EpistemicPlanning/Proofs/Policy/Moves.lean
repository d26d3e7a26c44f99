import EpistemicPlanning.Policy.Walk
import EpistemicPlanning.Proofs.Plan.Provenance

/-!
# The moves of a policy

A walk is made of moves, each along a provenance edge to a child of the node
(`Policy.Follows`). In a plan every step that is left at a node leads to a child of it, one level
deeper, so whatever the choices are, there is a walk (`SearchTree.IsPlan.exists_follows`).
-/
namespace EpistemicPlanning

variable {t : PlanningTask} {g : SearchTree} {n c : NodeId} {w : WorldId} {e : EdgeId} {k i : Nat}
variable {l : List (Action × ActionId)}

/-- A move of a walk: the edge that is followed, and the node that it leads to. -/
structure Move where
  edge : EdgeId
  target : NodeId

namespace Policy

variable {σ : Type} {p : Policy} {pick : Chooser σ} {s s' : σ} {path : List Move}

/-- The moves of a walk of at most so many steps from a node. -/
inductive Follows (p : Policy) (pick : Chooser σ) : Nat → NodeId → σ → List Move → Prop
  | spent {n : NodeId} {s : σ} : Follows p pick 0 n s []
  | stuck {k : Nat} {n : NodeId} {s : σ} (h : p.tree.unprunedEdges n = []) :
      Follows p pick (k + 1) n s []
  | move {k : Nat} {n c : NodeId} {s s' : σ} {e : EdgeId} {path : List Move}
      (hpick : choose pick (p.tree.unprunedEdges n) s = (some e, s'))
      (hchild : p.tree.child? n (p.tree.arena.edge e).action = some c)
      (h : Follows p pick k c s' path) : Follows p pick (k + 1) n s (⟨e, c⟩ :: path)

/-- The node that moves from a node lead to. -/
def lastNode (n : NodeId) : List Move → NodeId
  | [] => n
  | m :: path => lastNode m.target path

theorem mem_of_choose {l : List EdgeId} (h : choose pick l s = (some e, s')) : e ∈ l := by
  unfold choose at h
  split at h
  · next hpos =>
    obtain ⟨he, _⟩ := Prod.mk.inj h
    rw [← Option.some.inj he]
    exact List.getElem_mem _
  · cases (Prod.mk.inj h).1

/-- Where a single step is left, every walk takes it. -/
theorem Follows.forced (h : g.unprunedEdges n = [e])
    (hchild : g.child? n (g.arena.edge e).action = some c)
    (hrest : Follows ⟨g, t⟩ pick k c (pick 1 Nat.one_pos s).2 path) :
    Follows ⟨g, t⟩ pick (k + 1) n s (⟨e, c⟩ :: path) := by
  refine .move ?_ hchild hrest
  rw [h, choose, dif_pos (show 0 < [e].length from Nat.one_pos)]
  simp

/-- A walk takes the actions of its moves and ends where they lead. -/
theorem Follows.walk_eq (h : Follows p pick k n s path) :
    ∃ s', p.walk pick k n s =
      .ok (path.map fun m => (p.tree.arena.edge m.edge).action, lastNode n path, s') := by
  induction h with
  | spent => exact ⟨_, rfl⟩
  | @stuck k n s h =>
    refine ⟨s, ?_⟩
    rw [walk, h]
    rfl
  | @move k n c s s' e path hpick hchild _ ih =>
    obtain ⟨s'', hrest⟩ := ih
    refine ⟨s'', ?_⟩
    rw [walk, hpick]
    simp only [SearchTree.expectChild, hchild]
    change p.walk pick k c s' >>= _ = _
    rw [hrest]
    rfl

theorem Follows.length_le (h : Follows p pick k n s path) : path.length ≤ k := by
  induction h with
  | spent => exact Nat.le_refl _
  | stuck => exact Nat.zero_le _
  | move _ _ _ ih => exact Nat.succ_le_succ ih

/-- A walk that does not use up its steps ends where no step is left. -/
theorem Follows.stopped (h : Follows p pick k n s path) (hlt : path.length < k) :
    p.tree.unprunedEdges (lastNode n path) = [] := by
  induction h with
  | spent => exact absurd hlt (Nat.not_lt_zero _)
  | stuck h => exact h
  | move _ _ _ ih => exact ih (Nat.lt_of_succ_lt_succ hlt)

end Policy

namespace SearchTree

/-- From a node, an agent can move along a live edge from a live designated world, by an action of
the task, to the child that the action leads to. -/
structure Moves (t : PlanningTask) (g : SearchTree) (n : NodeId) (m : Move) : Prop where
  source : ∃ w ∈ (g.node n).state.designated, (g.arena.world w).pruned = false ∧
    m.edge ∈ (g.arena.world w).outgoing
  live : (g.arena.edge m.edge).pruned = false
  child : g.child? n (g.arena.edge m.edge).action = some m.target
  joins : g.Joins t m.edge n m.target
  inTree : m.target.index < g.size

theorem mem_liveDesignated (hn : n.index < g.size) : w ∈ g.liveDesignated n ↔
    w ∈ (g.node n).state.designated ∧ (g.arena.world w).pruned = false := by
  simp [liveDesignated, designated, node?_eq_some hn, SortedSet.mem_def]

theorem mem_unprunedEdges (hn : n.index < g.size) : e ∈ g.unprunedEdges n ↔
    (∃ w ∈ (g.node n).state.designated, (g.arena.world w).pruned = false ∧
      e ∈ (g.arena.world w).outgoing) ∧ (g.arena.edge e).pruned = false := by
  simp only [unprunedEdges, List.mem_filter, List.mem_flatMap, mem_liveDesignated hn,
    Bool.not_eq_true', and_assoc]

theorem mem_children_of_child? (hn : n.index < g.size) {a : ActionId}
    (h : g.child? n a = some c) : c ∈ (g.node n).children := by
  unfold child? at h
  rw [node?_eq_some hn, Option.bind_some] at h
  exact List.mem_of_find?_eq_some h

/-- A step that is left at a node is a move to one of its children. -/
theorem Unfolded.exists_moves (hinv : g.Unfolded t k l) (hwf : g.WellFormed t)
    (hn : n.index < g.size) (he : e ∈ g.unprunedEdges n) : ∃ c, g.Moves t n ⟨e, c⟩ := by
  obtain ⟨⟨w, hdes, hlive, hout⟩, hedge⟩ := (mem_unprunedEdges hn).1 he
  have hw := (hwf.state n hn).designated_possible w hdes
  obtain ⟨c, hchild, htarget⟩ := hinv.child?_of_outgoing hwf hn hw hout
  have hc := (hinv.breadthFirst.child n hn c (mem_children_of_child? hn hchild)).1
  obtain ⟨m, hm, _, hjoin⟩ := hwf.joins_of_outgoing hn hw hout
  obtain rfl := hwf.apart m c hm hc _ hjoin.target htarget
  exact ⟨m, ⟨w, hdes, hlive, hout⟩, hedge, hchild, hjoin, hm⟩

theorem Moves.depth {m : Move} (h : g.Moves t n m) (hwf : g.WellFormed t) :
    (g.node m.target).depth = (g.node n).depth + 1 :=
  (hwf.parent m.target n h.inTree h.joins.parent).2

/-- A move of a walk is along a step that is left. -/
theorem Moves.of_choose {σ : Type} {pick : Policy.Chooser σ} {s s' : σ} (hinv : g.Unfolded t k l)
    (hwf : g.WellFormed t) (hn : n.index < g.size)
    (hpick : Policy.choose pick (g.unprunedEdges n) s = (some e, s'))
    (hchild : g.child? n (g.arena.edge e).action = some c) : g.Moves t n ⟨e, c⟩ := by
  obtain ⟨c', hmove⟩ := hinv.exists_moves hwf hn (Policy.mem_of_choose hpick)
  obtain rfl : c = c' := Option.some.inj (hchild.symm.trans hmove.child)
  exact hmove

end SearchTree

namespace Policy

open SearchTree

variable {σ : Type} {pick : Chooser σ} {s : σ} {path : List Move}
variable (hinv : g.Unfolded t k l) (hwf : g.WellFormed t)

include hinv hwf

/-- Each move of a walk goes one level down. -/
theorem Follows.depth_at {steps : Nat} (h : Follows ⟨g, t⟩ pick steps n s path)
    (hn : n.index < g.size) (i : Nat) (hi : i ≤ path.length) :
    (lastNode n (path.take i)).index < g.size ∧
      (g.node (lastNode n (path.take i))).depth = (g.node n).depth + i := by
  induction h generalizing i with
  | spent =>
    obtain rfl : i = 0 := Nat.le_zero.1 hi
    exact ⟨hn, rfl⟩
  | stuck =>
    obtain rfl : i = 0 := Nat.le_zero.1 hi
    exact ⟨hn, rfl⟩
  | move hpick hchild _ ih =>
    have hmove := Moves.of_choose hinv hwf hn hpick hchild
    cases i with
    | zero => exact ⟨hn, rfl⟩
    | succ i =>
      obtain ⟨hin, hdepth⟩ := ih hmove.inTree i (Nat.le_of_succ_le_succ hi)
      refine ⟨hin, hdepth.trans ?_⟩
      rw [hmove.depth hwf]
      omega

theorem Follows.moves_at {steps : Nat} (h : Follows ⟨g, t⟩ pick steps n s path)
    (hn : n.index < g.size) {m : Move} (hm : path[i]? = some m) :
    g.Moves t (lastNode n (path.take i)) m := by
  induction h generalizing i with
  | spent => cases hm
  | stuck => cases hm
  | move hpick hchild _ ih =>
    have hmove := Moves.of_choose hinv hwf hn hpick hchild
    cases i with
    | zero =>
      cases hm
      exact hmove
    | succ i => exact ih hmove.inTree hm

end Policy

/-- The tree of a plan has been unfolded. -/
theorem Planner.plan_unfolded {p : Planner} (hacc : t.Accepted) (h : p.plan t = .ok g) :
    ∃ k, g.Unfolded t k [] := by
  obtain ⟨r, hmade⟩ := plan_of_run h
  obtain ⟨r₀, hstart, hround⟩ := hmade.round
  obtain ⟨f, hlevel⟩ := (hstart.after hacc hround).level
  obtain ⟨k, hcut⟩ := PlanningTask.cutAt_of_unfoldTo hacc hlevel.unfolds
  exact ⟨k, (hcut.unfolding.unfolded hacc).of_sameShape
    (hlevel.sameShape.symm.trans hmade.sameCosts.toSameShape.symm)⟩

end EpistemicPlanning
