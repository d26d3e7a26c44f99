import EpistemicPlanning.Proofs.Accessibility.Cuts
import EpistemicPlanning.Proofs.Lever
import EpistemicPlanning.Proofs.Plan.Basic

/-!
# The pruned steps of a plan

In a plan, the pruned worlds and steps are those that the rule of rationality excludes, and what
excludes them is passed on to all their descendants (`Planner.plan_prunes_rationally`).
-/
namespace EpistemicPlanning

open Relation

variable {t : PlanningTask} {g : SearchTree} {n : NodeId} {w v : WorldId} {e : EdgeId} {a : Agent}

/-- An edge is one of those by which a world was made, from an initial world on. -/
inductive Arena.Made (arena : Arena) (e : EdgeId) : WorldId → Prop
  | own {w : WorldId} (h : (arena.world w).incoming = some e) : Made arena e w
  | before {w : WorldId} {e' : EdgeId} (h : (arena.world w).incoming = some e')
      (hparent : Made arena e (arena.edge e').parent) : Made arena e w

namespace SearchTree

/-- An agent has a stored link between two unpruned worlds of a node. -/
def LiveLink (g : SearchTree) (n : NodeId) (a : Agent) (w v : WorldId) : Prop :=
  (g.node n).state.relation.Adjacent a w v ∧ (g.arena.world w).pruned = false ∧
    (g.arena.world v).pruned = false

/-- The marks of a tree are those of the rule of rationality. -/
structure PrunedRationally (g : SearchTree) : Prop where
  /-- A world is pruned when its own step is. -/
  world : ∀ w, (g.arena.world w).pruned = true ↔
    ∃ e, (g.arena.world w).incoming = some e ∧ (g.arena.edge e).pruned = true
  /-- A world is pruned when one of the steps by which it was made was pruned at a live world. -/
  descent : ∀ w, (g.arena.world w).pruned = true ↔
    ∃ e, g.arena.Made e w ∧ (g.arena.edge e).pruned = true ∧
      (g.arena.world (g.arena.edge e).parent).pruned = false
  /-- A step is pruned when it begins at a pruned world, or when its owner can be sure of less. -/
  edge : ∀ e, e.index < g.arena.edges.size → ((g.arena.edge e).pruned = true ↔
    (g.arena.world (g.arena.edge e).parent).pruned = true ∨
      ∃ c, (g.arena.world (g.arena.edge e).parent).agentCosts.find? (g.arena.edge e).agent =
        some c ∧ c.isStrictlyBelow (g.arena.edge e).cost = true)
  /-- At an unpruned world each agent of the node can be sure of the worst cost over the worlds
  that chains of its links between unpruned worlds join to it. -/
  sure : ∀ n, n.index < g.size → ∀ w ∈ (g.node n).state.possible,
    (g.arena.world w).pruned = false → ∀ a, (g.node n).state.relation.hasAgent a = true →
      ∃ live : SortedSet WorldId, (∀ v, v ∈ live ↔ ReflTransGen (g.LiveLink n a) w v) ∧
        (g.arena.world w).agentCosts.find? a =
          some (.worst (live.toList.map fun v => (g.arena.world v).cost))
  /-- At a pruned world nothing is written for any agent. -/
  unsure : ∀ w, (g.arena.world w).pruned = true → (g.arena.world w).agentCosts = ∅
  count : g.stats.prunedEdges = g.arena.edges.countP ProvenanceEdge.pruned

namespace IsPlan

theorem pruned_eq_incomingPruned (h : g.IsPlan t) :
    (g.arena.world w).pruned = g.arena.incomingPruned w := by
  rcases g.possible_or_outside w with ⟨n, hn, hw⟩ | hout
  · exact (h.rational n hn w hw).pruned
  · have hnone : (g.arena.world w).incoming = none := by
      refine Option.eq_none_iff_forall_ne_some.2 fun e he => ?_
      obtain ⟨hin, hchild⟩ := (h.wellFormed.consistent.incoming w e).1 he
      obtain ⟨_, m, _, hm, hjoin⟩ := h.wellFormed.edge e hin
      exact hout m hm (hchild ▸ hjoin.target)
    rw [(h.outside w hout).1, Arena.incomingPruned, hnone]
    rfl

theorem pruned_world_iff (h : g.IsPlan t) : (g.arena.world w).pruned = true ↔
    ∃ e, (g.arena.world w).incoming = some e ∧ (g.arena.edge e).pruned = true := by
  rw [h.pruned_eq_incomingPruned, Arena.incomingPruned, Option.any_eq_true]

theorem pruned_edge_iff (h : g.IsPlan t) (he : e.index < g.arena.edges.size) :
    (g.arena.edge e).pruned = true ↔
      (g.arena.world (g.arena.edge e).parent).pruned = true ∨
        ∃ c, (g.arena.world (g.arena.edge e).parent).agentCosts.find? (g.arena.edge e).agent =
          some c ∧ c.isStrictlyBelow (g.arena.edge e).cost = true := by
  obtain ⟨n, m, hn, _, hjoin⟩ := h.wellFormed.edge e he
  have hjudged := h.rational n hn _ hjoin.source
  rw [← h.pruned_eq_incomingPruned] at hjudged
  have hout := (h.wellFormed.consistent.outgoing _ e).2 ⟨he, rfl⟩
  rw [hjudged.step e hout, hjudged.agentCosts, Bool.or_eq_true, Rationality.isIrrational_iff]
  cases (g.arena.world (g.arena.edge e).parent).pruned with
  | true => simp
  | false => simp

/-- A pruned world descends from a live world by a pruned step. -/
theorem pruned_iff_descends (h : g.IsPlan t) : (g.arena.world w).pruned = true ↔
    ∃ e, g.arena.Made e w ∧ (g.arena.edge e).pruned = true ∧
      (g.arena.world (g.arena.edge e).parent).pruned = false := by
  constructor
  · intro hw
    -- up the provenance chain until the parent is live
    induction hk : w.index using Nat.strongRecOn generalizing w with
    | ind k ih =>
      obtain ⟨e, hincoming, he⟩ := h.pruned_world_iff.1 hw
      obtain ⟨hin, hchild⟩ := (h.wellFormed.consistent.incoming w e).1 hincoming
      cases hparent : (g.arena.world (g.arena.edge e).parent).pruned with
      | false => exact ⟨e, .own hincoming, he, hparent⟩
      | true =>
        have hlt := (h.wellFormed.consistent.ends e hin).1
        rw [hchild, hk] at hlt
        obtain ⟨e', hmade, hrest⟩ := ih _ hlt hparent rfl
        exact ⟨e', .before hincoming hmade, hrest⟩
  · rintro ⟨e, hmade, he, _⟩
    induction hmade with
    | own hincoming => exact h.pruned_world_iff.2 ⟨e, hincoming, he⟩
    | @before w e' hincoming _ ih =>
      have hin := ((h.wellFormed.consistent.incoming w e').1 hincoming).1
      exact h.pruned_world_iff.2 ⟨e', hincoming, (h.pruned_edge_iff hin).2 (Or.inl ih)⟩

theorem agentCosts_of_pruned (h : g.IsPlan t) (hw : (g.arena.world w).pruned = true) :
    (g.arena.world w).agentCosts = ∅ := by
  rcases g.possible_or_outside w with ⟨n, hn, hmem⟩ | hout
  · rw [(h.rational n hn w hmem).agentCosts, ← h.pruned_eq_incomingPruned, hw]
    rfl
  · exact (h.outside w hout).2

theorem mem_deadWorlds_iff (h : g.IsPlan t) (hw : w ∈ (g.node n).state.possible) :
    w ∈ Rationality.deadWorlds g.arena (g.node n) ↔ (g.arena.world w).pruned = true := by
  rw [mem_deadWorlds, h.pruned_eq_incomingPruned]
  simp [hw]

theorem liveAdjacent_iff (h : g.IsPlan t) (hn : n.index < g.size) :
    (g.node n).state.relation.LiveAdjacent (Rationality.deadWorlds g.arena (g.node n)) a w v ↔
      g.LiveLink n a w v := by
  have hwf := h.wellFormed.state n hn
  unfold Accessibility.LiveAdjacent LiveLink
  refine and_congr_right fun hadj => ?_
  obtain ⟨hw, hv⟩ := hwf.endsKnown a w v hadj
  rw [h.mem_deadWorlds_iff ((hwf.nodes_iff w).1 hw), h.mem_deadWorlds_iff ((hwf.nodes_iff v).1 hv),
    Bool.not_eq_true, Bool.not_eq_true]

theorem sure_of_live (h : g.IsPlan t) (hn : n.index < g.size)
    (hw : w ∈ (g.node n).state.possible) (hlive : (g.arena.world w).pruned = false)
    (ha : (g.node n).state.relation.hasAgent a = true) :
    ∃ live : SortedSet WorldId, (∀ v, v ∈ live ↔ ReflTransGen (g.LiveLink n a) w v) ∧
      (g.arena.world w).agentCosts.find? a =
        some (.worst (live.toList.map fun v => (g.arena.world v).cost)) := by
  have hdead : w ∉ Rationality.deadWorlds g.arena (g.node n) := by
    rw [h.mem_deadWorlds_iff hw, hlive]
    exact Bool.false_ne_true
  have hjoined : ∀ v, ReflTransGen ((g.node n).state.relation.LiveAdjacent
      (Rationality.deadWorlds g.arena (g.node n)) a) w v ↔ ReflTransGen (g.LiveLink n a) w v := by
    intro v
    have heq : (g.node n).state.relation.LiveAdjacent
        (Rationality.deadWorlds g.arena (g.node n)) a = g.LiveLink n a := by
      funext x y
      exact propext (h.liveAdjacent_iff hn)
    rw [heq]
  have hjudged := h.rational n hn w hw
  rw [← h.pruned_eq_incomingPruned, hlive] at hjudged
  refine ⟨(classOf (((g.node n).state.relation.clearCuts.cutTouching
    (Rationality.deadWorlds g.arena (g.node n))).classesOf a .respectCuts) w).filter fun v =>
      !(Rationality.deadWorlds g.arena (g.node n)).contains v, fun v => ?_, ?_⟩
  · rw [SortedSet.mem_filter, Accessibility.mem_class_respectCuts,
      Accessibility.joined_cutTouching hdead]
    constructor
    · rintro ⟨hv, _⟩
      exact (hjoined v).1 hv
    · intro hv
      have hv' := (hjoined v).2 hv
      have hlive' := Accessibility.not_mem_of_joined_live hdead hv'
      exact ⟨hv', by simpa [SortedSet.contains] using hlive'⟩
  · rw [hjudged.agentCosts]
    exact Rationality.find?_sureAt.trans (if_pos ha)

/-- Only agents of a node can be sure of something at its worlds. -/
theorem hasAgent_of_sure (h : g.IsPlan t) (hn : n.index < g.size)
    (hw : w ∈ (g.node n).state.possible) (hlive : (g.arena.world w).pruned = false) {c : Cost}
    (hc : (g.arena.world w).agentCosts.find? a = some c) :
    (g.node n).state.relation.hasAgent a = true := by
  have hjudged := h.rational n hn w hw
  rw [← h.pruned_eq_incomingPruned, hlive] at hjudged
  rw [hjudged.agentCosts] at hc
  by_contra hno
  have hnone : (g.sureOf n w).find? a = none := Rationality.find?_sureAt.trans (if_neg hno)
  exact Option.some_ne_none c (hc.symm.trans hnone)

theorem prunedRationally (h : g.IsPlan t) : g.PrunedRationally where
  world _ := h.pruned_world_iff
  descent _ := h.pruned_iff_descends
  edge _ he := h.pruned_edge_iff he
  sure _ hn _ hw hlive _ ha := h.sure_of_live hn hw hlive ha
  unsure _ hw := h.agentCosts_of_pruned hw
  count := h.prunedEdges

end IsPlan

end SearchTree

/-- Whatever the configuration, the marks in a plan for an accepted task are those of the rule of
rationality. -/
theorem Planner.plan_prunes_rationally {p : Planner} (hacc : t.Accepted)
    (hfresh : t.arena.Fresh) (h : p.plan t = .ok g) : g.PrunedRationally :=
  (p.isPlan hacc hfresh h).prunedRationally

/-- In the plan for the lever some steps are pruned. -/
theorem Lever.plan_pruning : Lever.plan.PrunedRationally ∧ 0 < Lever.plan.stats.prunedEdges :=
  ⟨Planner.plan_prunes_rationally Lever.accepted Lever.fresh Lever.plan_eq, by decide +kernel⟩

end EpistemicPlanning
