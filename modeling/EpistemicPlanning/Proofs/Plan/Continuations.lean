import EpistemicPlanning.Proofs.Plan.Distances
import EpistemicPlanning.Proofs.Plan.Pruning

/-!
# Optimal continuations survive pruning

In a plan, no step is pruned at a live world that costs as much as the world itself. So shortest
chains to the goal and chains down to the cutoff depth survive
(`Planner.plan_keeps_continuations`).
-/
namespace EpistemicPlanning

open Relation

variable {t : PlanningTask} {g : SearchTree} {n : NodeId} {w v : WorldId} {e : EdgeId}
variable {es : List EdgeId} {i : UInt32} {m : Nat}

/-- A chain of unpruned edges through unpruned worlds, both of its ends included. -/
inductive Arena.LiveChain (arena : Arena) : WorldId → List EdgeId → WorldId → Prop
  | nil {w : WorldId} (hw : (arena.world w).pruned = false) : LiveChain arena w [] w
  | cons {w v : WorldId} {e : EdgeId} {es : List EdgeId} (hw : (arena.world w).pruned = false)
      (he : e ∈ (arena.world w).outgoing) (hlive : (arena.edge e).pruned = false)
      (h : LiveChain arena (arena.edge e).child es v) : LiveChain arena w (e :: es) v

namespace SearchTree

/-- A chain of unpruned steps to a goal world, the costs of which count down to one. -/
def Continues (t : PlanningTask) (g : SearchTree) (w : WorldId) (m : Nat) : Prop :=
  ∃ es v, g.arena.LiveChain w es v ∧ g.GoalAt t v ∧
    es.map (fun e => (g.arena.edge e).cost) =
      (List.range m).reverse.map fun j => .settled (Cost.saturated (j + 1))

/-- A chain of unpruned steps to a world at the cutoff depth. -/
def ReachesCutoff (g : SearchTree) (w : WorldId) (m : Nat) : Prop :=
  ∃ es v, g.arena.LiveChain w es v ∧ es.length = m ∧
    ∃ n, n.index < g.size ∧ (g.node n).depth = g.stats.cutoffDepth ∧
      v ∈ (g.node n).state.possible

/-- Pruning keeps an optimal continuation of each world that it keeps. -/
structure KeepsContinuations (t : PlanningTask) (g : SearchTree) : Prop where
  settled : ∀ w, (g.arena.world w).pruned = false → ∀ k, (g.arena.world w).cost = .settled k →
    ∃ m, k = Cost.saturated m ∧ g.Continues t w m
  provisional : ∀ w, (g.arena.world w).pruned = false → ∀ r,
    (g.arena.world w).cost = .provisional r →
      ∃ m, r = Cost.saturated (m + 1) ∧ g.ReachesCutoff w m
  /-- Unless there are more worlds than numbers of steps, chains are as long as the costs say. -/
  exact : g.arena.worlds.size < UInt32.size → ∀ w, (g.arena.world w).pruned = false → ∀ k,
    ((g.arena.world w).cost = .settled k → g.Continues t w k.toNat) ∧
    ((g.arena.world w).cost = .provisional k → ∃ m, k.toNat = m + 1 ∧ g.ReachesCutoff w m)

namespace IsPlan

/-- At the worlds that an agent cannot tell apart from a world, provisional costs are not below the
cost of this world. -/
theorem le_provisional (h : g.IsPlan t) (hn : n.index < g.size)
    (hw : w ∈ (g.node n).state.possible) (hv : v ∈ (g.node n).state.possible) {p : Bool}
    {j : UInt32} (hcost : (g.arena.world w).cost = .finite i p)
    (hprov : (g.arena.world v).cost = .provisional j) : i ≤ j := by
  cases p with
  | false => exact h.settled_le_provisional hn hw hv hcost hprov
  | true =>
    have hi := ((h.summary hn hw).eq_provisional_iff.1 hcost).2.2
    have hj := ((h.summary hn hv).eq_provisional_iff.1 hprov).2.2
    rw [hi, hj]
    exact UInt32.le_refl _

/-- What agents can be sure of at a live world is not below the cost of the world. -/
theorem sure_not_below (h : g.IsPlan t) (hn : n.index < g.size)
    (hw : w ∈ (g.node n).state.possible) (hlive : (g.arena.world w).pruned = false) {p : Bool}
    (hcost : (g.arena.world w).cost = .finite i p) {a : Agent} {c : Cost}
    (hc : (g.arena.world w).agentCosts.find? a = some c) :
    c.isStrictlyBelow (.finite i p) = false := by
  obtain ⟨live, hmem, hsure⟩ := h.sure_of_live hn hw hlive (h.hasAgent_of_sure hn hw hlive hc)
  obtain rfl : c = _ := Option.some.inj (hc.symm.trans hsure)
  -- the world itself is among those that count, and no provisional cost among them is less
  refine Cost.not_worst_isStrictlyBelow ?_ fun j hj => ?_
  · rw [← hcost]
    exact List.mem_map_of_mem ((hmem w).2 ReflTransGen.refl)
  · obtain ⟨v, hv, hvj⟩ := List.mem_map.1 hj
    refine h.le_provisional hn hw ?_ hcost hvj
    have hjoined : ReflTransGen ((g.node n).state.relation.Adjacent a) w v :=
      ReflTransGen.mono (fun _ _ hlink => hlink.1) _ _ ((hmem v).1 hv)
    exact (h.wellFormed.state n hn).possible_of_joined hw hjoined

/-- A step from a live world that costs as much as the world is not pruned. -/
theorem live_edge (h : g.IsPlan t) (hn : n.index < g.size) (hw : w ∈ (g.node n).state.possible)
    (hlive : (g.arena.world w).pruned = false) {p : Bool}
    (hcost : (g.arena.world w).cost = .finite i p) (he : e ∈ (g.arena.world w).outgoing)
    (hedge : (g.arena.edge e).cost = .finite i p) : (g.arena.edge e).pruned = false := by
  obtain ⟨hin, hparent⟩ := (h.wellFormed.consistent.outgoing w e).1 he
  rw [Bool.eq_false_iff]
  intro hpruned
  rcases (h.pruned_edge_iff hin).1 hpruned with hdead | ⟨c, hc, hbelow⟩
  · rw [hparent, hlive] at hdead
    cases hdead
  · rw [hparent] at hc
    rw [hedge, h.sure_not_below hn hw hlive hcost hc] at hbelow
    cases hbelow

theorem live_child (h : g.IsPlan t) (he : e ∈ (g.arena.world w).outgoing)
    (hlive : (g.arena.edge e).pruned = false) :
    (g.arena.world (g.arena.edge e).child).pruned = false := by
  have hin := ((h.wellFormed.consistent.outgoing w e).1 he).1
  have hincoming := (h.wellFormed.consistent.incoming _ e).2 ⟨hin, rfl⟩
  rw [h.pruned_eq_incomingPruned, Arena.incomingPruned, hincoming]
  exact hlive

/-- From a live world at some distance from the goal, a live chain of this length leads there. -/
theorem continues_of_isLeast (h : g.IsPlan t) (hn : n.index < g.size)
    (hw : w ∈ (g.node n).state.possible) (hlive : (g.arena.world w).pruned = false)
    (hleast : IsLeast (g.goalDistances t w) m) : g.Continues t w m := by
  induction m generalizing n w with
  | zero =>
    obtain ⟨es, v, hc, hlength, hv⟩ := hleast.1
    obtain rfl := List.length_eq_zero_iff.1 hlength
    cases hc
    exact ⟨[], w, .nil hlive, hv, rfl⟩
  | succ m ih =>
    have hgoal : ¬g.GoalAt t w := fun hgoal =>
      absurd (hleast.2 (goalDistances_of_goal hgoal)) (Nat.not_succ_le_zero m)
    obtain ⟨e, he, j, hj, hmj⟩ := (mem_goalDistances hgoal).1 hleast.1
    obtain rfl := Nat.succ.inj hmj
    have hmin : ∀ k ∈ g.goalDistances t (g.arena.edge e).child, m ≤ k := fun k hk =>
      Nat.le_of_succ_le_succ (hleast.2 ((mem_goalDistances hgoal).2 ⟨e, he, k, hk, rfl⟩))
    -- a first step that wastes nothing costs as much as the world, and so it is kept
    have hcost : (g.arena.world w).cost = .settled (Cost.saturated (m + 1)) :=
      (h.summary hn hw).eq_settled_iff.2 ⟨m + 1, hleast, rfl⟩
    have hedge : (g.arena.edge e).cost = .settled (Cost.saturated (m + 1)) := by
      refine (h.summary_edge hn hw he).eq_settled_iff.2 ⟨m + 1, ⟨⟨m, hj, rfl⟩, ?_⟩, rfl⟩
      rintro _ ⟨k, hk, rfl⟩
      exact Nat.succ_le_succ (hmin k hk)
    have hpass := h.live_edge hn hw hlive hcost he hedge
    obtain ⟨p, hp, _, hjoin⟩ := h.wellFormed.joins_of_outgoing hn hw he
    obtain ⟨es, v, hchain, hv, hcosts⟩ := ih hp hjoin.target (h.live_child he hpass) ⟨hj, hmin⟩
    refine ⟨e :: es, v, .cons hlive he hpass hchain, hv, ?_⟩
    rw [List.map_cons, hcosts, hedge, List.range_succ, List.reverse_append]
    rfl

/-- Where the goal is out of reach, the chains to open leaves are live. -/
theorem liveChain_of_open (h : g.IsPlan t) (hn : n.index < g.size)
    (hw : w ∈ (g.node n).state.possible) (hlive : (g.arena.world w).pruned = false)
    (hnone : g.goalDistances t w = ∅) (hc : g.arena.Chain w es v)
    (hv : g.OpenAt t g.stats.cutoffDepth v) : g.arena.LiveChain w es v := by
  induction hc generalizing n with
  | nil w => exact .nil hlive
  | @cons w v e es he hc ih =>
    have hgoal : ¬g.GoalAt t w := fun hgoal => by
      have hzero := goalDistances_of_goal hgoal
      rw [hnone] at hzero
      exact hzero
    have hnone' : g.goalDistances t (g.arena.edge e).child = ∅ := by
      refine Set.eq_empty_iff_forall_notMem.2 fun k hk => ?_
      have hmem := (mem_goalDistances hgoal).2 ⟨e, he, k, hk, rfl⟩
      rw [hnone] at hmem
      exact hmem
    have hcost := (h.summary hn hw).eq_provisional_iff.2
      ⟨hnone, ⟨e :: es, v, .cons he hc, hv⟩, rfl⟩
    have hedge := (h.summary_edge hn hw he).eq_provisional_iff.2 ⟨?_, ⟨es, v, hc, hv⟩, rfl⟩
    · have hpass := h.live_edge hn hw hlive hcost he hedge
      obtain ⟨p, hp, _, hjoin⟩ := h.wellFormed.joins_of_outgoing hn hw he
      exact .cons hlive he hpass (ih hp hjoin.target (h.live_child he hpass) hnone' hv)
    · rw [hnone']
      exact Set.eq_empty_iff_forall_notMem.2 fun _ ⟨_, hk, _⟩ => hk

theorem possible_of_cost (h : g.IsPlan t) {p : Bool}
    (hcost : (g.arena.world w).cost = .finite i p) :
    ∃ n, n.index < g.size ∧ w ∈ (g.node n).state.possible := by
  rcases g.possible_or_outside w with hin | hout
  · exact hin
  · rw [h.costed.outside w hout] at hcost
    cases hcost

theorem continues_of_settled (h : g.IsPlan t) (hlive : (g.arena.world w).pruned = false)
    (hcost : (g.arena.world w).cost = .settled i) :
    ∃ m < g.arena.worlds.size, i = Cost.saturated m ∧ g.Continues t w m := by
  obtain ⟨n, hn, hw⟩ := h.possible_of_cost hcost
  obtain ⟨m, hleast, hi⟩ := (h.summary hn hw).eq_settled_iff.1 hcost
  obtain ⟨es, v, hc, rfl, hv⟩ := hleast.1
  exact ⟨es.length, h.wellFormed.length_lt_size hn hw hc, hi,
    h.continues_of_isLeast hn hw hlive hleast⟩

theorem reachesCutoff_of_provisional (h : g.IsPlan t) (hlive : (g.arena.world w).pruned = false)
    (hcost : (g.arena.world w).cost = .provisional i) :
    ∃ m < g.arena.worlds.size, i = Cost.saturated (m + 1) ∧ g.ReachesCutoff w m := by
  obtain ⟨n, hn, hw⟩ := h.possible_of_cost hcost
  obtain ⟨hnone, ⟨es, v, hc, hopen⟩, hi⟩ := (h.summary hn hw).eq_provisional_iff.1 hcost
  have hlive' := h.liveChain_of_open hn hw hlive hnone hc hopen
  obtain ⟨m, hm, hleaf, hvm, _⟩ := hopen
  obtain ⟨m', hm', hvm', hdepth⟩ := h.wellFormed.exists_node_of_chain hn hw hc
  obtain rfl := h.wellFormed.apart m m' hm hm' v hvm hvm'
  have hlength : es.length = g.stats.cutoffDepth - (g.node n).depth := by omega
  refine ⟨es.length, h.wellFormed.length_lt_size hn hw hc, ?_, es, v, hlive', rfl, m, hm, hleaf,
    hvm⟩
  rw [hi, hlength]

theorem keepsContinuations (h : g.IsPlan t) : g.KeepsContinuations t where
  settled _ hlive _ hcost := by
    obtain ⟨m, _, hk, hm⟩ := h.continues_of_settled hlive hcost
    exact ⟨m, hk, hm⟩
  provisional _ hlive _ hcost := by
    obtain ⟨m, _, hk, hm⟩ := h.reachesCutoff_of_provisional hlive hcost
    exact ⟨m, hk, hm⟩
  exact hsmall _ hlive _ := by
    constructor
    · intro hcost
      obtain ⟨m, hlt, rfl, hm⟩ := h.continues_of_settled hlive hcost
      rwa [toNat_saturated_of_small hsmall (Nat.le_of_lt hlt)]
    · intro hcost
      obtain ⟨m, hlt, rfl, hm⟩ := h.reachesCutoff_of_provisional hlive hcost
      exact ⟨m, toNat_saturated_of_small hsmall hlt, hm⟩

end IsPlan

end SearchTree

/-- Whatever the configuration, pruning keeps optimal continuations in a plan for an accepted
task. -/
theorem Planner.plan_keeps_continuations {p : Planner} (hacc : t.Accepted)
    (hfresh : t.arena.Fresh) (h : p.plan t = .ok g) : g.KeepsContinuations t :=
  (p.isPlan hacc hfresh h).keepsContinuations

theorem Lever.plan_continuations : Lever.plan.KeepsContinuations Lever.task ∧
    (Lever.plan.arena.world (Lever.world 1)).pruned = false ∧
      (Lever.plan.arena.world (Lever.world 1)).cost = .settled 1 :=
  ⟨Planner.plan_keeps_continuations Lever.accepted Lever.fresh Lever.plan_eq, by decide +kernel,
    by decide +kernel⟩

end EpistemicPlanning
