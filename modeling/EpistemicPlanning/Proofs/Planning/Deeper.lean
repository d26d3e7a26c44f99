import EpistemicPlanning.Proofs.Planning.Costing
import EpistemicPlanning.Proofs.Planning.Distance
import EpistemicPlanning.Proofs.SearchTree.Levels

/-!
# Looking deeper

A tree that is cut at a greater depth has the chains of the tree that is cut above
(`SearchTree.Deepens`). New chains pass the cut, where they leave a world at which something can
still happen, so neither shortest chains to the goal nor the absence of any hope change with the
depth.
-/
namespace EpistemicPlanning.SearchTree

variable {t : PlanningTask} {g g' h h' : SearchTree} {n : NodeId} {u v w : WorldId} {e : EdgeId}
variable {es : List EdgeId} {d d' m : Nat}

/-- The tree `g` is cut at depth `d`, and `g'` is the same down to this depth. -/
structure Deepens (t : PlanningTask) (d : Nat) (g g' : SearchTree) : Prop where
  shallow : g.WellFormed t
  deep : g'.WellFormed t
  later : g'.Extends g
  depth : ∀ n, n.index < g.size → (g.node n).depth ≤ d
  old : ∀ n, n.index < g'.size → (g'.node n).depth ≤ d → n.index < g.size

theorem deepens_of_unfoldTo (hacc : t.Accepted) (hfresh : t.arena.Fresh) (hle : d ≤ d')
    (hh : t.unfoldTo d = .ok h) (hh' : t.unfoldTo d' = .ok h') (hs : g.SameShape h)
    (hs' : g'.SameShape h') : Deepens t d g g' := by
  obtain ⟨hext, hold⟩ := PlanningTask.extends_of_unfoldTo hacc hh hle hh'
  obtain ⟨k, hcut⟩ := PlanningTask.cutAt_of_unfoldTo hacc hh
  obtain ⟨k', hcut'⟩ := PlanningTask.cutAt_of_unfoldTo hacc hh'
  refine ⟨(hcut.unfolding.wellFormed hacc hfresh).of_sameShape hs.symm,
    (hcut'.unfolding.wellFormed hacc hfresh).of_sameShape hs'.symm,
    .trans (.of_sameShape hs') (.trans hext (.of_sameShape hs.symm)), fun n hn => ?_,
    fun n hn hdepth => ?_⟩
  · rw [hs.depth]
    exact hcut.depth_le (hs.size ▸ hn)
  · rw [hs.size]
    rw [hs'.depth] at hdepth
    exact hold n (hs'.size ▸ hn) hdepth

theorem exists_split_of_chain {arena : Arena} (hc : arena.Chain w es v) (hle : m ≤ es.length) :
    ∃ es₁ u es₂, arena.Chain w es₁ u ∧ arena.Chain u es₂ v ∧ es₁.length = m ∧
      es₂.length = es.length - m := by
  induction m generalizing w es with
  | zero => exact ⟨[], w, es, .nil w, hc, rfl, rfl⟩
  | succ m ih =>
    cases hc with
    | nil => exact absurd hle (Nat.not_succ_le_zero m)
    | @cons _ _ e es he hc =>
      obtain ⟨es₁, u, es₂, hfirst, hrest, hlength, hlength'⟩ := ih hc (Nat.le_of_succ_le_succ hle)
      refine ⟨e :: es₁, u, es₂, .cons he hfirst, hrest, ?_, ?_⟩
      · rw [List.length_cons, hlength]
      · rw [hlength', List.length_cons]
        omega

namespace Deepens

variable (hdeep : Deepens t d g g')

include hdeep

theorem in_deep (hn : n.index < g.size) : n.index < g'.size :=
  Nat.lt_of_lt_of_le hn hdeep.later.size

theorem mem_deep (hn : n.index < g.size) (hw : w ∈ (g.node n).state.possible) :
    w ∈ (g'.node n).state.possible := by
  rw [hdeep.later.possible hn]
  exact hw

/-! ### Steps and chains -/

theorem outgoing_deep (hn : n.index < g.size) (hw : w ∈ (g.node n).state.possible)
    (he : e ∈ (g.arena.world w).outgoing) :
    e ∈ (g'.arena.world w).outgoing ∧ (g'.arena.edge e).child = (g.arena.edge e).child := by
  have hin := hdeep.shallow.inArena n hn w hw
  have he' := ((hdeep.shallow.consistent.outgoing w e).1 he).1
  exact ⟨(hdeep.later.arena.outgoing w hin).subset he, hdeep.later.arena.child he'⟩

theorem outgoing_shallow (hn : n.index < g.size) (hw : w ∈ (g.node n).state.possible)
    (hlt : (g.node n).depth < d) (he : e ∈ (g'.arena.world w).outgoing) :
    e ∈ (g.arena.world w).outgoing := by
  obtain ⟨c, hc, _, hjoin⟩ :=
    hdeep.deep.joins_of_outgoing (hdeep.in_deep hn) (hdeep.mem_deep hn hw) he
  obtain ⟨hin, hparent⟩ := (hdeep.deep.consistent.outgoing w e).1 he
  have hdepth := (hdeep.deep.parent c n hc hjoin.parent).2
  rw [hdeep.later.depth hn] at hdepth
  have hc' : c.index < g.size := hdeep.old c hc (by omega)
  have htarget := hjoin.target
  rw [hdeep.later.possible hc'] at htarget
  -- the world that the step leads to was there before, and so was the edge that it was made by
  have hincoming := (hdeep.deep.consistent.incoming _ e).2 ⟨hin, rfl⟩
  rw [hdeep.later.arena.incoming _ (hdeep.shallow.inArena c hc' _ htarget)] at hincoming
  have he' := ((hdeep.shallow.consistent.incoming _ e).1 hincoming).1
  refine (hdeep.shallow.consistent.outgoing w e).2 ⟨he', ?_⟩
  rw [← hdeep.later.arena.parent he']
  exact hparent

theorem chain_deep (hn : n.index < g.size) (hw : w ∈ (g.node n).state.possible)
    (hc : g.arena.Chain w es v) : g'.arena.Chain w es v := by
  induction hc generalizing n with
  | nil w => exact .nil w
  | @cons w v e es he _ ih =>
    obtain ⟨c, hc, _, hjoin⟩ := hdeep.shallow.joins_of_outgoing hn hw he
    obtain ⟨he', hchild⟩ := hdeep.outgoing_deep hn hw he
    have hrest := ih hc hjoin.target
    rw [← hchild] at hrest
    exact .cons he' hrest

/-- A chain that does not pass the cut is a chain of the shallow tree. -/
theorem chain_shallow (hn : n.index < g.size) (hw : w ∈ (g.node n).state.possible)
    (hle : (g.node n).depth + es.length ≤ d) (hc : g'.arena.Chain w es v) :
    g.arena.Chain w es v := by
  induction hc generalizing n with
  | nil w => exact .nil w
  | @cons w v e es he _ ih =>
    rw [List.length_cons] at hle
    have he' := hdeep.outgoing_shallow hn hw (by omega) he
    obtain ⟨_, hchild⟩ := hdeep.outgoing_deep hn hw he'
    obtain ⟨c, hc, _, hjoin⟩ := hdeep.shallow.joins_of_outgoing hn hw he'
    have hdepth := (hdeep.shallow.parent c n hc hjoin.parent).2
    rw [hchild] at ih
    exact .cons he' (ih hc hjoin.target (by omega))

/-! ### Worlds of the shallow tree -/

theorem goalAt_iff (hn : n.index < g.size) (hw : w ∈ (g.node n).state.possible) :
    g'.GoalAt t w ↔ g.GoalAt t w := by
  have heval : t.goal.evaluate g.arena (g.node n).state w =
      t.goal.evaluate g'.arena (g'.node n).state w := by
    refine (hdeep.shallow.state n hn).evaluate_congr (hdeep.later.links hn).symm
      (fun v hv => ?_) t.goal hw
    exact (hdeep.later.arena.valuation v (hdeep.shallow.inArena n hn v hv)).symm
  rw [SearchTree.goalAt_iff hdeep.deep (hdeep.in_deep hn) (hdeep.mem_deep hn hw),
    SearchTree.goalAt_iff hdeep.shallow hn hw, heval]

theorem someFires_iff (hn : n.index < g.size) (hw : w ∈ (g.node n).state.possible) :
    t.SomeFires g'.arena (g'.node n).state w ↔ t.SomeFires g.arena (g.node n).state w := by
  refine (PlanningTask.someFires_congr (hdeep.shallow.state n hn) (hdeep.later.links hn).symm
    (fun v hv => ?_) hw).symm
  exact (hdeep.later.arena.valuation v (hdeep.shallow.inArena n hn v hv)).symm

/-- The end of a chain that does not pass the cut is a goal world in both trees or in none. -/
theorem goalAt_of_chain (hn : n.index < g.size) (hw : w ∈ (g.node n).state.possible)
    (hc : g.arena.Chain w es v) : g'.GoalAt t v ↔ g.GoalAt t v := by
  obtain ⟨m, hm, hv, _⟩ := hdeep.shallow.exists_node_of_chain hn hw hc
  exact hdeep.goalAt_iff hm hv

theorem goalDistances_deep (hn : n.index < g.size) (hw : w ∈ (g.node n).state.possible)
    (hm : m ∈ g.goalDistances t w) : m ∈ g'.goalDistances t w := by
  obtain ⟨es, v, hc, hlength, hgoal⟩ := hm
  exact ⟨es, v, hdeep.chain_deep hn hw hc, hlength, (hdeep.goalAt_of_chain hn hw hc).2 hgoal⟩

theorem goalDistances_shallow (hn : n.index < g.size) (hw : w ∈ (g.node n).state.possible)
    (hle : (g.node n).depth + m ≤ d) (hm : m ∈ g'.goalDistances t w) :
    m ∈ g.goalDistances t w := by
  obtain ⟨es, v, hc, rfl, hgoal⟩ := hm
  have hc' := hdeep.chain_shallow hn hw hle hc
  exact ⟨es, v, hc', rfl, (hdeep.goalAt_of_chain hn hw hc').1 hgoal⟩

/-- A chain that passes the cut leaves a goal world or an open leaf there. -/
theorem goal_or_open_of_chain (hcosted : g.Costed t d) (hn : n.index < g.size)
    (hw : w ∈ (g.node n).state.possible) (hc : g'.arena.Chain w es v)
    (hlt : d < (g.node n).depth + es.length) :
    (g.goalDistances t w).Nonempty ∨ g.ReachesOpen t d w := by
  have hle := hdeep.depth n hn
  have hcut : d - (g.node n).depth ≤ es.length := by omega
  obtain ⟨es₁, u, es₂, hfirst, hrest, hlength, hlength'⟩ := exists_split_of_chain hc hcut
  have hfirst' := hdeep.chain_shallow hn hw (by omega) hfirst
  obtain ⟨m, hm, hu, hdepth⟩ := hdeep.shallow.exists_node_of_chain hn hw hfirst'
  -- the step across the cut tells that some event fires
  have hfires : t.SomeFires g.arena (g.node m).state u := by
    cases hrest with
    | nil =>
      simp only [List.length_nil] at hlength'
      omega
    | @cons _ _ e _ he _ =>
      obtain ⟨_, _, _, hjoin⟩ :=
        hdeep.deep.joins_of_outgoing (hdeep.in_deep hm) (hdeep.mem_deep hm hu) he
      have hfires := hjoin.fires
      rw [((hdeep.deep.consistent.outgoing u e).1 he).2] at hfires
      exact (hdeep.someFires_iff hm hu).1 ⟨_, _, hfires⟩
  obtain ⟨s, hcorrect, _⟩ := (hcosted.node m hm).worlds u hu
  have hopen : t.goal.evaluate g.arena (g.node m).state u = .ok false → g.ReachesOpen t d w :=
    fun hfalse => ⟨es₁, u, hfirst', m, hm, by omega, hu, hfalse, hfires⟩
  cases s with
  | goal => exact Or.inl ⟨es₁.length, es₁, u, hfirst', rfl, m, hm, hu, hcorrect⟩
  | stuck => exact Or.inr (hopen hcorrect.1)
  | active => exact Or.inr (hopen hcorrect.1)

/-! ### Distances -/

theorem isLeast_deep (hn : n.index < g.size) (hw : w ∈ (g.node n).state.possible)
    (hleast : IsLeast (g.goalDistances t w) m) : IsLeast (g'.goalDistances t w) m := by
  refine ⟨hdeep.goalDistances_deep hn hw hleast.1, fun k hk => ?_⟩
  by_contra hlt
  obtain ⟨es, v, hc, hlength, _⟩ := hleast.1
  obtain ⟨m', hm', _, hdepth⟩ := hdeep.shallow.exists_node_of_chain hn hw hc
  have hle := hdeep.depth m' hm'
  exact hlt (hleast.2 (hdeep.goalDistances_shallow hn hw (by omega) hk))

/-- Where there is no hope, chains end above the cut. -/
theorem length_le_of_hopeless (hcosted : g.Costed t d) (hn : n.index < g.size)
    (hw : w ∈ (g.node n).state.possible) (hnone : g.goalDistances t w = ∅)
    (hclosed : ¬g.ReachesOpen t d w) (hc : g'.arena.Chain w es v) :
    (g.node n).depth + es.length ≤ d := by
  by_contra hlt
  rcases hdeep.goal_or_open_of_chain hcosted hn hw hc (Nat.lt_of_not_le hlt) with hgoal | hopen
  · rw [hnone] at hgoal
    exact Set.not_nonempty_empty hgoal
  · exact hclosed hopen

theorem goalDistances_of_hopeless (hcosted : g.Costed t d) (hn : n.index < g.size)
    (hw : w ∈ (g.node n).state.possible) (hnone : g.goalDistances t w = ∅)
    (hclosed : ¬g.ReachesOpen t d w) : g'.goalDistances t w = ∅ := by
  refine Set.eq_empty_iff_forall_notMem.2 fun k hk => ?_
  obtain ⟨es, v, hc, rfl, _⟩ := id hk
  have hle := hdeep.length_le_of_hopeless hcosted hn hw hnone hclosed hc
  have hk' := hdeep.goalDistances_shallow hn hw hle hk
  rw [hnone] at hk'
  exact hk'

theorem not_reachesOpen_of_hopeless (hcosted : g.Costed t d) (hn : n.index < g.size)
    (hw : w ∈ (g.node n).state.possible) (hnone : g.goalDistances t w = ∅)
    (hclosed : ¬g.ReachesOpen t d w) (hlt : d < d') : ¬g'.ReachesOpen t d' w := by
  intro ⟨es, v, hc, m, hm, hdepth, hv, _⟩
  obtain ⟨m', hm', hv', hdepth'⟩ :=
    hdeep.deep.exists_node_of_chain (hdeep.in_deep hn) (hdeep.mem_deep hn hw) hc
  obtain rfl := hdeep.deep.apart m m' hm hm' v hv hv'
  have hle := hdeep.length_le_of_hopeless hcosted hn hw hnone hclosed hc
  rw [hdeep.later.depth hn] at hdepth'
  omega

/-- Where the goal was out of reach, it comes into reach below the cut only. -/
theorem lt_of_mem_goalDistances (hn : n.index < g.size) (hw : w ∈ (g.node n).state.possible)
    (hnone : g.goalDistances t w = ∅) (hm : m ∈ g'.goalDistances t w) :
    d < (g.node n).depth + m := by
  by_contra hle
  have hm' := hdeep.goalDistances_shallow hn hw (Nat.le_of_not_lt hle) hm
  rw [hnone] at hm'
  exact hm'

end Deepens

end EpistemicPlanning.SearchTree
