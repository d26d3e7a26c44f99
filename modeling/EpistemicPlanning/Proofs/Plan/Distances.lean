import EpistemicPlanning.Proofs.Lever
import EpistemicPlanning.Proofs.Plan.Basic
import EpistemicPlanning.Proofs.Planning.Distance

/-!
# The costs of a plan

In a plan, the cost of a world is its distance to the goal along provenance edges
(`Planner.plan_costs_are_distances`). Costs hold numbers of steps up to a bound only, which matters
in arenas of more than `2 ^ 32` worlds alone (`SearchTree.ExactCosts.exact`).
-/
namespace EpistemicPlanning

variable {t : PlanningTask} {g : SearchTree} {n : NodeId} {w : WorldId} {k : Nat} {i j : UInt32}

namespace SearchTree

/-- The costs of a tree are exact distances. -/
structure ExactCosts (t : PlanningTask) (g : SearchTree) : Prop where
  /-- A settled cost is the length of a shortest chain to a goal world. -/
  settled : ∀ n, n.index < g.size → ∀ w ∈ (g.node n).state.possible, ∀ k,
    (g.arena.world w).cost = .settled k ↔
      ∃ m, IsLeast (g.goalDistances t w) m ∧ k = Cost.saturated m
  /-- A provisional cost says that no goal world but an open leaf is reachable, and how many steps
  are left to the cutoff depth. -/
  provisional : ∀ n, n.index < g.size → ∀ w ∈ (g.node n).state.possible, ∀ k,
    (g.arena.world w).cost = .provisional k ↔
      g.goalDistances t w = ∅ ∧ g.ReachesOpen t g.stats.cutoffDepth w ∧
        k = Cost.saturated (g.stats.cutoffDepth - (g.node n).depth + 1)
  /-- Otherwise the cost is infinite. -/
  infinity : ∀ n, n.index < g.size → ∀ w ∈ (g.node n).state.possible,
    (g.arena.world w).cost = .infinity ↔
      g.goalDistances t w = ∅ ∧ ¬g.ReachesOpen t g.stats.cutoffDepth w
  edge : ∀ e, e.index < g.arena.edges.size →
    (g.arena.edge e).cost = (g.arena.world (g.arena.edge e).child).cost.successor
  /-- The cost of a node is the greatest over its designated worlds. -/
  node : ∀ n, n.index < g.size → ∃ w ∈ (g.node n).state.designated,
    (g.node n).cost = (g.arena.world w).cost ∧
      ∀ v ∈ (g.node n).state.designated, (g.arena.world v).cost ≤ (g.node n).cost
  /-- A settled cost does not exceed the steps that are left to the cutoff depth. -/
  bounded : ∀ n, n.index < g.size → ∀ w ∈ (g.node n).state.possible, ∀ k,
    (g.arena.world w).cost = .settled k → k.toNat ≤ g.stats.cutoffDepth - (g.node n).depth
  /-- Among the steps from one world, no provisional cost is less than a settled one. -/
  preference : ∀ n, n.index < g.size → ∀ w ∈ (g.node n).state.possible,
    ∀ e ∈ (g.arena.world w).outgoing, ∀ e' ∈ (g.arena.world w).outgoing, ∀ i j,
      (g.arena.edge e).cost = .settled i → (g.arena.edge e').cost = .provisional j → i ≤ j
  /-- Unless there are more worlds than numbers of steps, costs are the distances themselves. -/
  exact : g.arena.worlds.size < UInt32.size → ∀ n, n.index < g.size →
    ∀ w ∈ (g.node n).state.possible, ∀ k,
      ((g.arena.world w).cost = .settled k ↔ IsLeast (g.goalDistances t w) k.toNat) ∧
      ((g.arena.world w).cost = .provisional k ↔
        g.goalDistances t w = ∅ ∧ g.ReachesOpen t g.stats.cutoffDepth w ∧
          k.toNat = g.stats.cutoffDepth - (g.node n).depth + 1)

namespace IsPlan

theorem summary (h : g.IsPlan t) (hn : n.index < g.size) (hw : w ∈ (g.node n).state.possible) :
    Cost.Summary (g.goalDistances t w) (g.ReachesOpen t g.stats.cutoffDepth w)
      (g.stats.cutoffDepth - (g.node n).depth + 1) (g.arena.world w).cost :=
  summary_cost h.wellFormed h.costed h.depth hn hw

/-- Chains end within the tree, above the cutoff depth. -/
theorem length_le (h : g.IsPlan t) (hn : n.index < g.size)
    (hw : w ∈ (g.node n).state.possible) {es : List EdgeId} {v : WorldId}
    (hc : g.arena.Chain w es v) : es.length ≤ g.stats.cutoffDepth - (g.node n).depth := by
  obtain ⟨m, hm, _, hdepth⟩ := h.wellFormed.exists_node_of_chain hn hw hc
  have hle := h.depth m hm
  omega

theorem settled_le (h : g.IsPlan t) (hn : n.index < g.size)
    (hw : w ∈ (g.node n).state.possible) (hcost : (g.arena.world w).cost = .settled i) :
    i ≤ Cost.saturated (g.stats.cutoffDepth - (g.node n).depth) ∧
      i.toNat ≤ g.stats.cutoffDepth - (g.node n).depth := by
  obtain ⟨m, ⟨⟨es, v, hc, rfl, _⟩, _⟩, rfl⟩ := (h.summary hn hw).eq_settled_iff.1 hcost
  have hle := h.length_le hn hw hc
  refine ⟨Cost.saturated_mono hle, ?_⟩
  rw [Cost.toNat_saturated]
  omega

/-- At the worlds of one node, provisional costs exceed settled ones. -/
theorem settled_le_provisional (h : g.IsPlan t) (hn : n.index < g.size) {v : WorldId}
    (hw : w ∈ (g.node n).state.possible) (hv : v ∈ (g.node n).state.possible)
    (hsettled : (g.arena.world w).cost = .settled i)
    (hprov : (g.arena.world v).cost = .provisional j) : i ≤ j := by
  rw [((h.summary hn hv).eq_provisional_iff.1 hprov).2.2]
  exact UInt32.le_trans (h.settled_le hn hw hsettled).1 (Cost.saturated_mono (Nat.le_succ _))

theorem edge_cost (h : g.IsPlan t) {e : EdgeId} (he : e.index < g.arena.edges.size) :
    (g.arena.edge e).cost = (g.arena.world (g.arena.edge e).child).cost.successor := by
  obtain ⟨n, m, hn, _, hjoin⟩ := h.wellFormed.edge e he
  obtain ⟨s, _, hsettled⟩ := (h.costed.node n hn).worlds _ hjoin.source
  exact hsettled.step e ((h.wellFormed.consistent.outgoing _ e).2 ⟨he, rfl⟩)

theorem node_cost (h : g.IsPlan t) (hn : n.index < g.size) :
    ∃ w ∈ (g.node n).state.designated, (g.node n).cost = (g.arena.world w).cost ∧
      ∀ v ∈ (g.node n).state.designated, (g.arena.world v).cost ≤ (g.node n).cost := by
  have hcost := (h.costed.node n hn).cost
  rw [designatedCost_eq hn] at hcost
  obtain ⟨w₀, hw₀⟩ := h.designated n hn
  cases hmax : ((g.node n).state.designated.toList.map fun w => (g.arena.world w).cost).max? with
  | none =>
    rw [List.max?_eq_none_iff, List.map_eq_nil_iff] at hmax
    rw [SortedSet.mem_def, hmax] at hw₀
    cases hw₀
  | some c =>
    obtain ⟨hmem, hle⟩ := List.max?_eq_some_iff.1 hmax
    obtain ⟨w, hw, rfl⟩ := List.mem_map.1 hmem
    rw [hmax, Option.getD_some] at hcost
    refine ⟨w, hw, hcost, fun v hv => ?_⟩
    rw [hcost]
    exact hle _ (List.mem_map_of_mem hv)

/-- The cost of a step sums up the distances through it. -/
theorem summary_edge (h : g.IsPlan t) (hn : n.index < g.size)
    (hw : w ∈ (g.node n).state.possible) {e : EdgeId} (he : e ∈ (g.arena.world w).outgoing) :
    Cost.Summary {k | ∃ j ∈ g.goalDistances t (g.arena.edge e).child, k = j + 1}
      (g.ReachesOpen t g.stats.cutoffDepth (g.arena.edge e).child)
      (g.stats.cutoffDepth - (g.node n).depth + 1) (g.arena.edge e).cost := by
  obtain ⟨m, hm, _, hjoin⟩ := h.wellFormed.joins_of_outgoing hn hw he
  have hdeeper := (h.wellFormed.parent m n hm hjoin.parent).2
  have hle := h.depth m hm
  have hchild := (h.summary hm hjoin.target).successor
  rw [hdeeper] at hchild hle
  rw [h.edge_cost ((h.wellFormed.consistent.outgoing w e).1 he).1]
  rwa [show g.stats.cutoffDepth - ((g.node n).depth + 1) + 1 =
    g.stats.cutoffDepth - (g.node n).depth by omega] at hchild

theorem settled_le_provisional_edge (h : g.IsPlan t) (hn : n.index < g.size)
    (hw : w ∈ (g.node n).state.possible) {e e' : EdgeId}
    (he : e ∈ (g.arena.world w).outgoing) (he' : e' ∈ (g.arena.world w).outgoing)
    (hsettled : (g.arena.edge e).cost = .settled i)
    (hprov : (g.arena.edge e').cost = .provisional j) : i ≤ j := by
  obtain ⟨_, ⟨⟨k, ⟨es, v, hc, rfl, _⟩, rfl⟩, _⟩, rfl⟩ :=
    (h.summary_edge hn hw he).eq_settled_iff.1 hsettled
  have hle := h.length_le hn hw (.cons he hc)
  rw [List.length_cons] at hle
  rw [((h.summary_edge hn hw he').eq_provisional_iff.1 hprov).2.2]
  exact Cost.saturated_mono (Nat.le_succ_of_le hle)

/-- Numbers of steps in a small arena are not cut short. -/
theorem toNat_saturated_of_small (hsmall : g.arena.worlds.size < UInt32.size)
    (hk : k ≤ g.arena.worlds.size) : (Cost.saturated k).toNat = k :=
  Cost.toNat_saturated_of_lt (Nat.lt_of_le_of_lt hk hsmall)

theorem eq_settled_iff_of_small (h : g.IsPlan t) (hsmall : g.arena.worlds.size < UInt32.size)
    (hn : n.index < g.size) (hw : w ∈ (g.node n).state.possible) :
    (g.arena.world w).cost = .settled i ↔ IsLeast (g.goalDistances t w) i.toNat := by
  rw [(h.summary hn hw).eq_settled_iff]
  constructor
  · rintro ⟨m, hleast, rfl⟩
    obtain ⟨es, v, hc, rfl, _⟩ := hleast.1
    rwa [toNat_saturated_of_small hsmall (Nat.le_of_lt (h.wellFormed.length_lt_size hn hw hc))]
  · intro hleast
    refine ⟨i.toNat, hleast, UInt32.toNat_inj.1 ?_⟩
    obtain ⟨es, v, hc, hlength, _⟩ := hleast.1
    have hlt := h.wellFormed.length_lt_size hn hw hc
    rw [hlength] at hlt
    rw [toNat_saturated_of_small hsmall (Nat.le_of_lt hlt)]

theorem eq_provisional_iff_of_small (h : g.IsPlan t)
    (hsmall : g.arena.worlds.size < UInt32.size) (hn : n.index < g.size)
    (hw : w ∈ (g.node n).state.possible) :
    (g.arena.world w).cost = .provisional i ↔
      g.goalDistances t w = ∅ ∧ g.ReachesOpen t g.stats.cutoffDepth w ∧
        i.toNat = g.stats.cutoffDepth - (g.node n).depth + 1 := by
  rw [(h.summary hn hw).eq_provisional_iff]
  refine and_congr_right fun _ => and_congr_right fun hopen => ?_
  -- the chain to the open leaf visits a world at each depth down to the cutoff
  obtain ⟨es, v, hc, p, hp, hleaf, hv, _⟩ := hopen
  obtain ⟨m, hm, hv', hdepth⟩ := h.wellFormed.exists_node_of_chain hn hw hc
  obtain rfl := h.wellFormed.apart m p hm hp v hv' hv
  have hlt := h.wellFormed.length_lt_size hn hw hc
  have hsaturated : (Cost.saturated (g.stats.cutoffDepth - (g.node n).depth + 1)).toNat =
      g.stats.cutoffDepth - (g.node n).depth + 1 :=
    toNat_saturated_of_small hsmall (by omega)
  rw [← UInt32.toNat_inj, hsaturated]

theorem exactCosts (h : g.IsPlan t) : g.ExactCosts t where
  settled _ hn _ hw _ := (h.summary hn hw).eq_settled_iff
  provisional _ hn _ hw _ := (h.summary hn hw).eq_provisional_iff
  infinity _ hn _ hw := (h.summary hn hw).eq_infinity_iff
  edge _ he := h.edge_cost he
  node _ hn := h.node_cost hn
  bounded _ hn _ hw _ hcost := (h.settled_le hn hw hcost).2
  preference _ hn _ hw _ he _ he' _ _ := h.settled_le_provisional_edge hn hw he he'
  exact hsmall _ hn _ hw _ :=
    ⟨h.eq_settled_iff_of_small hsmall hn hw, h.eq_provisional_iff_of_small hsmall hn hw⟩

end IsPlan

end SearchTree

/-- Whatever the configuration, the costs in a plan for an accepted task are exact distances. -/
theorem Planner.plan_costs_are_distances {p : Planner} (hacc : t.Accepted)
    (hfresh : t.arena.Fresh) (h : p.plan t = .ok g) : g.ExactCosts t :=
  (p.isPlan hacc hfresh h).exactCosts

theorem Lever.plan_costs : Lever.plan.ExactCosts Lever.task ∧
    (Lever.plan.arena.world (Lever.world 1)).cost = .settled 1 :=
  ⟨Planner.plan_costs_are_distances Lever.accepted Lever.fresh Lever.plan_eq, by decide +kernel⟩

end EpistemicPlanning
