import EpistemicPlanning.Proofs.Cost.Summary
import EpistemicPlanning.Proofs.Planning.Induction

/-!
# Costs are distances

The equations of backward induction determine all costs: the cost of a world is the length of a
shortest chain of provenance edges to a goal world; where there is none, it is provisional if a
chain leads to a leaf at which something can still happen, and infinite otherwise
(`SearchTree.summary_cost`).
-/
namespace EpistemicPlanning

variable {t : PlanningTask} {arena : Arena} {u v w : WorldId} {e : EdgeId} {es : List EdgeId}

/-- A chain of provenance edges from one world to another. -/
inductive Arena.Chain (arena : Arena) : WorldId → List EdgeId → WorldId → Prop
  | nil (w : WorldId) : Chain arena w [] w
  | cons {w v : WorldId} {e : EdgeId} {es : List EdgeId} (he : e ∈ (arena.world w).outgoing)
      (h : Chain arena (arena.edge e).child es v) : Chain arena w (e :: es) v

/-- A chain leads to later and later worlds. -/
theorem Arena.Chain.index_add_length_le (h : arena.Consistent) (hc : arena.Chain w es v) :
    w.index + es.length ≤ v.index := by
  induction hc with
  | nil w => exact Nat.le_refl _
  | @cons w v e es he _ ih =>
    obtain ⟨hin, rfl⟩ := (h.outgoing w e).1 he
    have hends := (h.ends e hin).1
    rw [List.length_cons]
    omega

namespace SearchTree

variable {g : SearchTree} {m n : NodeId} {limit d : Nat}

/-- The goal holds at a world, in the state of its node. -/
def GoalAt (t : PlanningTask) (g : SearchTree) (w : WorldId) : Prop :=
  ∃ n, n.index < g.size ∧ w ∈ (g.node n).state.possible ∧
    t.goal.evaluate g.arena (g.node n).state w = .ok true

/-- A world of a node at depth `limit` fails the goal, and some event of some action has a true
precondition there. -/
def OpenAt (t : PlanningTask) (limit : Nat) (g : SearchTree) (w : WorldId) : Prop :=
  ∃ n, n.index < g.size ∧ (g.node n).depth = limit ∧ w ∈ (g.node n).state.possible ∧
    t.goal.evaluate g.arena (g.node n).state w = .ok false ∧
    t.SomeFires g.arena (g.node n).state w

/-- The lengths of the chains from a world to goal worlds. -/
def goalDistances (t : PlanningTask) (g : SearchTree) (w : WorldId) : Set Nat :=
  {m | ∃ es v, g.arena.Chain w es v ∧ es.length = m ∧ g.GoalAt t v}

/-- Some chain leads from a world to an open leaf. -/
def ReachesOpen (t : PlanningTask) (limit : Nat) (g : SearchTree) (w : WorldId) : Prop :=
  ∃ es v, g.arena.Chain w es v ∧ g.OpenAt t limit v

/-! ### Chains and steps -/

theorem goalAt_iff (h : g.WellFormed t) (hn : n.index < g.size)
    (hw : w ∈ (g.node n).state.possible) :
    g.GoalAt t w ↔ t.goal.evaluate g.arena (g.node n).state w = .ok true := by
  constructor
  · rintro ⟨m, hm, hwm, hgoal⟩
    obtain rfl := h.apart m n hm hn w hwm hw
    exact hgoal
  · intro hgoal
    exact ⟨n, hn, hw, hgoal⟩

theorem openAt_iff (h : g.WellFormed t) (hn : n.index < g.size)
    (hw : w ∈ (g.node n).state.possible) :
    g.OpenAt t limit w ↔ (g.node n).depth = limit ∧
      t.goal.evaluate g.arena (g.node n).state w = .ok false ∧
      t.SomeFires g.arena (g.node n).state w := by
  constructor
  · rintro ⟨m, hm, hdepth, hwm, hrest⟩
    obtain rfl := h.apart m n hm hn w hwm hw
    exact ⟨hdepth, hrest⟩
  · rintro ⟨hdepth, hrest⟩
    exact ⟨n, hn, hdepth, hw, hrest⟩

/-- A distance from a world at which the goal fails is one more than a distance from a child. -/
theorem mem_goalDistances (hgoal : ¬g.GoalAt t w) {k : Nat} :
    k ∈ g.goalDistances t w ↔ ∃ e ∈ (g.arena.world w).outgoing,
      ∃ j ∈ g.goalDistances t (g.arena.edge e).child, k = j + 1 := by
  constructor
  · rintro ⟨es, v, hchain, rfl, hv⟩
    cases hchain with
    | nil _ => exact absurd hv hgoal
    | @cons _ _ e es he hchain => exact ⟨e, he, es.length, ⟨es, v, hchain, rfl, hv⟩, rfl⟩
  · rintro ⟨e, he, j, ⟨es, v, hchain, rfl, hv⟩, rfl⟩
    exact ⟨e :: es, v, .cons he hchain, rfl, hv⟩

theorem reachesOpen_iff (hopen : ¬g.OpenAt t limit w) :
    g.ReachesOpen t limit w ↔
      ∃ e ∈ (g.arena.world w).outgoing, g.ReachesOpen t limit (g.arena.edge e).child := by
  constructor
  · rintro ⟨es, v, hchain, hv⟩
    cases hchain with
    | nil _ => exact absurd hv hopen
    | cons he hchain => exact ⟨_, he, _, v, hchain, hv⟩
  · rintro ⟨e, he, es, v, hchain, hv⟩
    exact ⟨e :: es, v, .cons he hchain, hv⟩

theorem goalDistances_eq_empty (hgoal : ¬g.GoalAt t w)
    (hnil : (g.arena.world w).outgoing = []) : g.goalDistances t w = ∅ := by
  refine Set.eq_empty_iff_forall_notMem.2 fun k hk => ?_
  obtain ⟨e, he, _⟩ := (mem_goalDistances hgoal).1 hk
  rw [hnil] at he
  cases he

/-! ### The cost of a world -/

theorem WellFormed.outgoing_eq_nil_of_stuck (h : g.WellFormed t) (hn : n.index < g.size)
    (hw : w ∈ (g.node n).state.possible) (hstuck : ¬t.SomeFires g.arena (g.node n).state w) :
    (g.arena.world w).outgoing = [] := by
  refine List.eq_nil_iff_forall_not_mem.2 fun e he => ?_
  obtain ⟨m, _, _, hjoin⟩ := h.joins_of_outgoing hn hw he
  have hfires := hjoin.fires
  rw [((h.consistent.outgoing w e).1 he).2] at hfires
  exact hstuck ⟨_, _, hfires⟩

theorem WellFormed.outgoing_eq_nil_of_leaf (h : g.WellFormed t)
    (hdepth : ∀ n, n.index < g.size → (g.node n).depth ≤ limit) (hn : n.index < g.size)
    (hw : w ∈ (g.node n).state.possible) (hleaf : (g.node n).depth = limit) :
    (g.arena.world w).outgoing = [] := by
  refine List.eq_nil_iff_forall_not_mem.2 fun e he => ?_
  obtain ⟨m, hm, _, hjoin⟩ := h.joins_of_outgoing hn hw he
  have hdeeper := (h.parent m n hm hjoin.parent).2
  have hle := hdepth m hm
  omega

theorem goalDistances_of_goal (hgoal : g.GoalAt t w) : 0 ∈ g.goalDistances t w :=
  ⟨[], w, .nil w, rfl, hgoal⟩

theorem not_goalAt_of_eq_false (h : g.WellFormed t) (hn : n.index < g.size)
    (hw : w ∈ (g.node n).state.possible)
    (hfalse : t.goal.evaluate g.arena (g.node n).state w = .ok false) : ¬g.GoalAt t w := by
  rw [goalAt_iff h hn hw, hfalse]
  intro heq
  cases heq

/-- A chain from a world of a node leads to a world of a node that lies deeper by its length. -/
theorem WellFormed.exists_node_of_chain (h : g.WellFormed t) (hn : n.index < g.size)
    (hw : w ∈ (g.node n).state.possible) (hc : g.arena.Chain w es v) :
    ∃ m, m.index < g.size ∧ v ∈ (g.node m).state.possible ∧
      (g.node m).depth = (g.node n).depth + es.length := by
  induction hc generalizing n with
  | nil w => exact ⟨n, hn, hw, rfl⟩
  | @cons w v e es he _ ih =>
    obtain ⟨m, hm, _, hjoin⟩ := h.joins_of_outgoing hn hw he
    obtain ⟨k, hk, hv, hdepth⟩ := ih hm hjoin.target
    refine ⟨k, hk, hv, ?_⟩
    have hdeeper := (h.parent m n hm hjoin.parent).2
    rw [List.length_cons]
    omega

/-- Chains visit different worlds. -/
theorem WellFormed.length_lt_size (h : g.WellFormed t) (hn : n.index < g.size)
    (hw : w ∈ (g.node n).state.possible) (hc : g.arena.Chain w es v) :
    es.length < g.arena.worlds.size := by
  obtain ⟨m, hm, hv, _⟩ := h.exists_node_of_chain hn hw hc
  have hle := hc.index_add_length_le h.consistent
  have hlt := h.inArena m hm v hv
  omega

/-- Inner worlds at which something can happen take the best of their steps. -/
theorem summary_of_inner (h : g.WellFormed t) (hn : n.index < g.size)
    (hw : w ∈ (g.node n).state.possible) (hgoal : ¬g.GoalAt t w)
    (hlt : (g.node n).depth < limit)
    (hstep : ∀ e ∈ (g.arena.world w).outgoing,
      (g.arena.edge e).cost = (g.arena.world (g.arena.edge e).child).cost.successor)
    (hchild : ∀ e ∈ (g.arena.world w).outgoing,
      Cost.Summary (g.goalDistances t (g.arena.edge e).child)
        (g.ReachesOpen t limit (g.arena.edge e).child) (limit - (g.node n).depth)
        (g.arena.world (g.arena.edge e).child).cost) :
    Cost.Summary (g.goalDistances t w) (g.ReachesOpen t limit w)
      (limit - (g.node n).depth + 1)
      (.best ((g.arena.world w).outgoing.map fun e => (g.arena.edge e).cost)) := by
  have hopen : ¬g.OpenAt t limit w := by
    rw [openAt_iff h hn hw]
    rintro ⟨heq, _⟩
    exact Nat.ne_of_lt hlt heq
  have hall : ∀ e ∈ (g.arena.world w).outgoing,
      Cost.Summary {k | ∃ j ∈ g.goalDistances t (g.arena.edge e).child, k = j + 1}
        (g.ReachesOpen t limit (g.arena.edge e).child) (limit - (g.node n).depth + 1)
        (g.arena.edge e).cost := by
    intro e he
    rw [hstep e he]
    exact (hchild e he).successor
  refine (Cost.Summary.best hall).congr ?_ (reachesOpen_iff hopen).symm
  ext k
  exact (mem_goalDistances hgoal).symm

/-- The cost of a world sums up its distances to the goal. -/
theorem summary_cost (h : g.WellFormed t) (hcosted : g.Costed t limit)
    (hdepth : ∀ n, n.index < g.size → (g.node n).depth ≤ limit) (hn : n.index < g.size)
    (hw : w ∈ (g.node n).state.possible) :
    Cost.Summary (g.goalDistances t w) (g.ReachesOpen t limit w)
      (limit - (g.node n).depth + 1) (g.arena.world w).cost := by
  -- from the deepest level upwards
  induction hk : limit - (g.node n).depth using Nat.strong_induction_on generalizing n w with
  | _ k ih =>
    obtain ⟨s, hcorrect, hsettled⟩ := (hcosted.node n hn).worlds w hw
    rw [hsettled.world, ← hk]
    cases s with
    | goal => exact .zero (goalDistances_of_goal ((goalAt_iff h hn hw).2 hcorrect))
    | stuck =>
      have hgoal := not_goalAt_of_eq_false h hn hw hcorrect.1
      have hnil := h.outgoing_eq_nil_of_stuck hn hw hcorrect.2
      have hopen : ¬g.OpenAt t limit w := by
        rw [openAt_iff h hn hw]
        exact fun hopen => hcorrect.2 hopen.2.2
      refine .hopeless (goalDistances_eq_empty hgoal hnil) ?_
      rw [reachesOpen_iff hopen, hnil]
      rintro ⟨e, he, _⟩
      cases he
    | active =>
      have hgoal := not_goalAt_of_eq_false h hn hw hcorrect.1
      by_cases hleaf : (g.node n).depth = limit
      · have hnil := h.outgoing_eq_nil_of_leaf hdepth hn hw hleaf
        rw [hleaf, decide_eq_true rfl, Nat.sub_self]
        exact .cut (goalDistances_eq_empty hgoal hnil)
          ⟨[], w, .nil w, (openAt_iff h hn hw).2 ⟨hleaf, hcorrect⟩⟩
      · have hlt : (g.node n).depth < limit := Nat.lt_of_le_of_ne (hdepth n hn) hleaf
        rw [decide_eq_false hleaf]
        refine summary_of_inner h hn hw hgoal hlt hsettled.step fun e he => ?_
        obtain ⟨m, hm, _, hjoin⟩ := h.joins_of_outgoing hn hw he
        have hdeeper := (h.parent m n hm hjoin.parent).2
        have hchild := ih (limit - (g.node m).depth) (by omega) hm hjoin.target rfl
        rwa [hdeeper, show limit - ((g.node n).depth + 1) + 1 = limit - (g.node n).depth by omega]
          at hchild

theorem CostedTo.summary (h : g.CostedTo t limit) (hn : n.index < g.size)
    (hw : w ∈ (g.node n).state.possible) :
    Cost.Summary (g.goalDistances t w) (g.ReachesOpen t limit w) (limit - (g.node n).depth + 1)
      (g.arena.world w).cost := summary_cost h.wellFormed h.costed h.depth hn hw

/-- Only worlds of nodes have costs. -/
theorem CostedTo.exists_node (h : g.CostedTo t limit) (hw : (g.arena.world w).cost ≠ .undefined) :
    ∃ n, n.index < g.size ∧ w ∈ (g.node n).state.possible :=
  (g.possible_or_outside w).resolve_right fun hout => hw (h.costed.outside w hout)

end SearchTree

end EpistemicPlanning
