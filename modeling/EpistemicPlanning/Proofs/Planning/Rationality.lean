import EpistemicPlanning.Proofs.Planning.Marking
import EpistemicPlanning.Proofs.SearchTree.Provenance

/-!
# Pruning a tree

Nodes are pruned after their parents. When a node is pruned, it is known of its worlds whether their
own steps are pruned; what is then written at its worlds follows the rule of rationality
(`SearchTree.RationalAt`), and pruning later nodes does not touch it. In the end all nodes follow
the rule, and the pruned steps have been counted (`Rationality.rational_of_prune`).
-/
namespace EpistemicPlanning

variable {t : PlanningTask} {arena arena' : Arena} {g g' : SearchTree} {m n : NodeId}
variable {w v : WorldId} {e : EdgeId}

namespace Rationality

variable {x y z : Tally} {P Q : WorldId → Prop} {dead : SortedSet WorldId}
variable {classes : List (Agent × List (SortedSet WorldId))} {ws : List WorldId}

/-! ### The worlds of a node -/

theorem Ready.within (h : Ready dead x.1 w) (hc : x.1.Consistent) (hw : ¬P w)
    (hxy : Within P x y) : Ready dead y.1 w := by
  refine ⟨?_, ?_, ?_, fun e he => ?_⟩
  · rw [hxy.costs.worlds]
    exact h.inArena
  · rw [hxy.world w hw]
    exact h.pruned
  · rw [hxy.world w hw]
    exact h.agentCosts
  · rw [hxy.world w hw] at he
    rw [hxy.edge e (((hc.outgoing w e).1 he).2 ▸ hw)]
    exact h.step e he

/-- Pruning some worlds one after the other writes the marks of all of them. -/
theorem judged_pruneWorlds (hc : x.1.Consistent) (hnodup : ws.Nodup)
    (hready : ∀ w ∈ ws, Ready dead x.1 w) (h : ws.foldlM (pruneWorld dead classes) x = .ok y) :
    Within (· ∈ ws) x y ∧
      ∀ w ∈ ws, Judged (dead.contains w) (sureAt x.1 dead classes w) w y.1 := by
  induction ws generalizing x with
  | nil =>
    cases h
    refine ⟨.refl _, fun w hw => ?_⟩
    cases hw
  | cons v ws ih =>
    rw [List.foldlM_cons] at h
    obtain ⟨z, hz, h⟩ := Fallible.bind_eq_ok h
    rw [List.nodup_cons] at hnodup
    obtain ⟨hstep, hjudged⟩ := judged_pruneWorld hc (hready v List.mem_cons_self) hz
    have hc' := hc.of_sameShape hstep.costs.symm
    have hready' : ∀ w ∈ ws, Ready dead z.1 w := by
      intro w hw
      have hne : w ≠ v := ne_of_mem_of_not_mem hw hnodup.1
      exact (hready w (List.mem_cons_of_mem _ hw)).within hc hne hstep
    have hrest := ih hc' hnodup.2 hready' h
    refine ⟨(hstep.mono ?_).trans (hrest.1.mono fun w hw => List.mem_cons_of_mem _ hw),
      fun w hw => ?_⟩
    · rintro w rfl
      exact List.mem_cons_self
    · rcases List.mem_cons.1 hw with rfl | hw
      · exact hjudged.within hc' hnodup.1 hrest.1
      · rw [← sureAt_congr hstep.costs]
        exact hrest.2 w hw

/-! ### Marking dead worlds -/

/-- Marks some worlds as pruned. -/
def markDead (arena : Arena) (ws : List WorldId) : Arena :=
  ws.foldl (fun arena w => arena.modifyWorld w fun world => { world with pruned := true }) arena

theorem markDead_cons : markDead arena (v :: ws) =
    markDead (arena.modifyWorld v fun world => { world with pruned := true }) ws := rfl

theorem sameCosts_markDead : (markDead arena ws).SameCosts arena := by
  induction ws generalizing arena with
  | nil => exact .refl arena
  | cons v ws ih =>
    refine .trans (@ih _) (Arena.sameCosts_modifyWorld ?_ ?_)
    · intro world
      rfl
    · intro world
      rfl

theorem edge_markDead : (markDead arena ws).edge e = arena.edge e := by
  induction ws generalizing arena with
  | nil => rfl
  | cons v ws ih => exact @ih _

theorem prunedCount_markDead : (markDead arena ws).prunedCount = arena.prunedCount := by
  induction ws generalizing arena with
  | nil => rfl
  | cons v ws ih => exact @ih _

theorem world_markDead_of_not_mem (h : w ∉ ws) : (markDead arena ws).world w = arena.world w := by
  induction ws generalizing arena with
  | nil => rfl
  | cons v ws ih =>
    rw [List.mem_cons, not_or] at h
    rw [markDead_cons, ih h.2, Arena.world_modifyWorld_of_ne h.1]

theorem world_markDead_of_mem (h : w ∈ ws) (hin : w.index < arena.worlds.size) :
    (markDead arena ws).world w = { arena.world w with pruned := true } := by
  induction ws generalizing arena with
  | nil => cases h
  | cons v ws ih =>
    rw [markDead_cons]
    by_cases hrest : w ∈ ws
    · rw [ih hrest (by simpa using hin)]
      by_cases hv : w = v
      · subst hv
        rw [Arena.world_modifyWorld_self hin]
      · rw [Arena.world_modifyWorld_of_ne hv]
    · obtain rfl := (List.mem_cons.1 h).resolve_right hrest
      rw [world_markDead_of_not_mem hrest, Arena.world_modifyWorld_self hin]

/-- Nothing has been pruned at a world yet. -/
structure Untouched (arena : Arena) (w : WorldId) : Prop where
  pruned : (arena.world w).pruned = false
  agentCosts : (arena.world w).agentCosts = ∅
  step : ∀ e ∈ (arena.world w).outgoing, (arena.edge e).pruned = false

theorem Untouched.within (h : Untouched x.1 w) (hc : x.1.Consistent) (hw : ¬P w)
    (hxy : Within P x y) : Untouched y.1 w := by
  refine ⟨?_, ?_, fun e he => ?_⟩
  · rw [hxy.world w hw]
    exact h.pruned
  · rw [hxy.world w hw]
    exact h.agentCosts
  · rw [hxy.world w hw] at he
    rw [hxy.edge e (((hc.outgoing w e).1 he).2 ▸ hw)]
    exact h.step e he

theorem within_markDead {count : Nat} (h : ∀ w ∈ ws, P w) :
    Within P (arena, count) (markDead arena ws, count) where
  costs := sameCosts_markDead
  world v hv := world_markDead_of_not_mem fun hmem => hv (h v hmem)
  edge _ _ := edge_markDead
  count hcount := hcount.trans prunedCount_markDead.symm

theorem ready_markDead (hin : w.index < arena.worlds.size) (h : Untouched arena w) :
    Ready dead (markDead arena dead.toList) w := by
  have hworld : (markDead arena dead.toList).world w =
      { arena.world w with pruned := dead.contains w } := by
    by_cases hdead : w ∈ dead.toList
    · rw [world_markDead_of_mem hdead hin, SortedSet.contains_iff.2 hdead]
    · have hlive : dead.contains w = false :=
        Bool.eq_false_iff.2 fun hc => hdead (SortedSet.contains_iff.1 hc)
      rw [world_markDead_of_not_mem hdead, hlive, ← h.pruned]
  refine ⟨?_, ?_, ?_, fun e he => ?_⟩
  · rw [sameCosts_markDead.worlds]
    exact hin
  · rw [hworld]
  · rw [hworld]
    exact h.agentCosts
  · rw [hworld] at he
    rw [edge_markDead]
    exact h.step e he

end Rationality

/-! ### The rule at a node -/

namespace SearchTree

open Rationality

/-- For each agent, what it can be sure of at a world of a node. -/
def sureOf (g : SearchTree) (n : NodeId) (w : WorldId) : SortedMap Agent Cost :=
  let dead := deadWorlds g.arena (g.node n)
  sureAt g.arena dead (liveClasses ((g.node n).state.relation.clearCuts.cutTouching dead)) w

/-- The worlds of a node are marked by the rule of rationality: those whose own step is pruned are
dead, and at the others the steps that cost more than what their owner can be sure of are
pruned. -/
def RationalAt (g : SearchTree) (n : NodeId) : Prop :=
  ∀ w ∈ (g.node n).state.possible, Judged (g.arena.incomingPruned w) (g.sureOf n w) w g.arena

theorem mem_deadWorlds {node : Node} :
    w ∈ deadWorlds arena node ↔ w ∈ node.state.possible ∧ arena.incomingPruned w = true := by
  simp [deadWorlds]

theorem incomingPruned_congr (hs : arena'.SameShape arena)
    (hedge : ∀ e, (arena.world w).incoming = some e →
      (arena'.edge e).pruned = (arena.edge e).pruned) :
    arena'.incomingPruned w = arena.incomingPruned w := by
  unfold Arena.incomingPruned
  rw [hs.incoming]
  cases hin : (arena.world w).incoming with
  | none => rfl
  | some e => exact hedge e hin

theorem deadWorlds_congr {node node' : Node} (hp : node'.state.possible = node.state.possible)
    (h : ∀ w ∈ node.state.possible, arena'.incomingPruned w = arena.incomingPruned w) :
    deadWorlds arena' node' = deadWorlds arena node := by
  unfold deadWorlds
  rw [hp, List.filter_congr h]

theorem SameShape.clearCuts (s : g.SameShape g') :
    (g.node n).state.relation.clearCuts = (g'.node n).state.relation.clearCuts := by
  change (g.node n).unmarked.state.relation = (g'.node n).unmarked.state.relation
  rw [s.node n]

/-- What agents can be sure of at a node depends on costs and on which of its worlds are dead. -/
theorem sureOf_congr (s : g'.SameShape g) (hcosts : g'.arena.SameCosts g.arena)
    (h : ∀ w ∈ (g.node n).state.possible,
      g'.arena.incomingPruned w = g.arena.incomingPruned w) : g'.sureOf n w = g.sureOf n w := by
  unfold sureOf
  dsimp only
  rw [deadWorlds_congr s.possible h, s.clearCuts, sureAt_congr hcosts]

/-! ### Pruning a node -/

/-- From `x` to `y`, marks other than costs are written at worlds with `P` and at their steps
only. -/
structure PrunedWithin (P : WorldId → Prop) (x y : SearchTree × Nat) : Prop where
  shape : y.1.SameShape x.1
  nodeCost : ∀ n, (y.1.node n).cost = (x.1.node n).cost
  within : Within P (x.1.arena, x.2) (y.1.arena, y.2)

variable {x y z : SearchTree × Nat} {P Q : WorldId → Prop}

protected theorem PrunedWithin.refl (x : SearchTree × Nat) : PrunedWithin P x x :=
  ⟨.refl x.1, fun _ => rfl, .refl _⟩

protected theorem PrunedWithin.trans (h : PrunedWithin P x y) (h' : PrunedWithin P y z) :
    PrunedWithin P x z :=
  ⟨h'.shape.trans h.shape, fun n => (h'.nodeCost n).trans (h.nodeCost n),
    h.within.trans h'.within⟩

protected theorem PrunedWithin.mono (h : PrunedWithin P x y) (hle : ∀ v, P v → Q v) :
    PrunedWithin Q x y := ⟨h.shape, h.nodeCost, h.within.mono hle⟩

theorem WellFormed.parent_of_incoming (h : g.WellFormed t) (hn : n.index < g.size)
    (hw : w ∈ (g.node n).state.possible) (he : (g.arena.world w).incoming = some e) :
    ∃ p, p.index < n.index ∧ (g.arena.edge e).parent ∈ (g.node p).state.possible := by
  obtain ⟨hin, hchild⟩ := (h.consistent.incoming w e).1 he
  obtain ⟨p, m, _, hm, hjoin⟩ := h.edge e hin
  have htarget := hjoin.target
  rw [hchild] at htarget
  obtain rfl := h.apart m n hm hn w htarget hw
  exact ⟨p, (h.parent m p hm hjoin.parent).1, hjoin.source⟩

/-- Pruning at later nodes does not change whether the own step of a world is pruned. -/
theorem incomingPruned_of_within (h : x.1.WellFormed t) (hm : m.index < x.1.size)
    (hxy : PrunedWithin P x y)
    (hlater : ∀ v, P v → ∃ n, n.index < x.1.size ∧ m.index ≤ n.index ∧
      v ∈ (x.1.node n).state.possible) (hw : w ∈ (x.1.node m).state.possible) :
    y.1.arena.incomingPruned w = x.1.arena.incomingPruned w := by
  refine incomingPruned_congr hxy.shape.arena fun e he => ?_
  -- the own step of a world begins at a still earlier node
  obtain ⟨p, hlt, hparent⟩ := h.parent_of_incoming hm hw he
  rw [hxy.within.edge e]
  intro hP
  obtain ⟨n, hn, hle, hmem⟩ := hlater _ hP
  obtain rfl := h.apart p n (Nat.lt_trans hlt hm) hn _ hparent hmem
  exact absurd hle (Nat.not_le_of_lt hlt)

theorem RationalAt.of_within (hr : x.1.RationalAt m) (h : x.1.WellFormed t)
    (hm : m.index < x.1.size) (hxy : PrunedWithin P x y)
    (hlater : ∀ v, P v → ∃ n, n.index < x.1.size ∧ m.index < n.index ∧
      v ∈ (x.1.node n).state.possible) : y.1.RationalAt m := by
  have hincoming : ∀ w ∈ (x.1.node m).state.possible,
      y.1.arena.incomingPruned w = x.1.arena.incomingPruned w := by
    intro w hw
    refine incomingPruned_of_within h hm hxy (fun v hv => ?_) hw
    obtain ⟨n, hn, hlt, hmem⟩ := hlater v hv
    exact ⟨n, hn, Nat.le_of_lt hlt, hmem⟩
  intro w hw
  rw [hxy.shape.possible] at hw
  rw [hincoming w hw, sureOf_congr hxy.shape hxy.within.costs hincoming]
  refine (hr w hw).within h.consistent ?_ hxy.within
  intro hP
  obtain ⟨n, hn, hlt, hmem⟩ := hlater w hP
  obtain rfl := h.apart m n hm hn w hw hmem
  exact Nat.lt_irrefl _ hlt

/-- Pruning a node at which nothing has been pruned yet makes it follow the rule. -/
theorem rationalAt_of_pruneNode (h : x.1.WellFormed t) (hn : n.index < x.1.size)
    (hfresh : ∀ w ∈ (x.1.node n).state.possible, Untouched x.1.arena w)
    (hprune : pruneNode x n = .ok y) :
    PrunedWithin (· ∈ (x.1.node n).state.possible) x y ∧ y.1.RationalAt n := by
  unfold pruneNode at hprune
  obtain ⟨⟨arena, count⟩, hworlds, hprune⟩ := Fallible.bind_eq_ok hprune
  cases hprune
  have hmark : Within (· ∈ (x.1.node n).state.possible) (x.1.arena, x.2)
      (markDead x.1.arena (deadWorlds x.1.arena (x.1.node n)).toList, x.2) :=
    within_markDead fun w hw => (mem_deadWorlds.1 hw).1
  obtain ⟨hwithin, hjudged⟩ := judged_pruneWorlds (h.consistent.of_sameShape hmark.costs.symm)
    (h.state n hn).nodup (fun w hw => ready_markDead (h.inArena n hn w hw) (hfresh w hw)) hworlds
  have hall := hmark.trans hwithin
  have hpruned : PrunedWithin (· ∈ (x.1.node n).state.possible) x ({ x.1 with
      nodes := x.1.nodes.modify n.index fun node => { node with state := { node.state with
        relation := (x.1.node n).state.relation.clearCuts.cutTouching
          (deadWorlds x.1.arena (x.1.node n)) } }
      arena }, count) := by
    refine ⟨.trans ?_ (sameShape_arena hall.costs.toSameShape), fun m => ?_, hall⟩
    · exact sameShape_modify (g := { x.1 with arena }) rfl
    · exact node_modify_field (g := { x.1 with arena }) Node.cost rfl
  -- pruning a node prunes no step into it, so the rule reads the same before and after
  have hincoming : ∀ w ∈ (x.1.node n).state.possible,
      arena.incomingPruned w = x.1.arena.incomingPruned w := fun w hw =>
    incomingPruned_of_within h hn hpruned (fun v hv => ⟨n, hn, Nat.le_refl _, hv⟩) hw
  refine ⟨hpruned, fun w hw => ?_⟩
  rw [hpruned.shape.possible] at hw
  have hdead : (deadWorlds x.1.arena (x.1.node n)).contains w = x.1.arena.incomingPruned w := by
    rw [Bool.eq_iff_iff, SortedSet.contains_iff, mem_deadWorlds]
    simp [hw]
  rw [sureOf_congr hpruned.shape hall.costs hincoming]
  have hw' := hjudged w hw
  rw [sureAt_congr hmark.costs, hdead, ← hincoming w hw] at hw'
  exact hw'

/-! ### Pruning all nodes -/

/-- Pruning nodes in ascending order makes all of them follow the rule. -/
theorem rationalAt_of_pruneNodes {ns : List NodeId} (h : x.1.WellFormed t)
    (hin : ∀ n ∈ ns, n.index < x.1.size) (hsorted : ns.Pairwise fun m n => m.index < n.index)
    (hfresh : ∀ n ∈ ns, ∀ w ∈ (x.1.node n).state.possible, Untouched x.1.arena w)
    (hprune : ns.foldlM pruneNode x = .ok y) :
    PrunedWithin (fun w => ∃ n ∈ ns, w ∈ (x.1.node n).state.possible) x y ∧
      ∀ n ∈ ns, y.1.RationalAt n := by
  induction ns generalizing x with
  | nil =>
    cases hprune
    refine ⟨.refl _, fun n hn => ?_⟩
    cases hn
  | cons m ns ih =>
    rw [List.foldlM_cons] at hprune
    obtain ⟨z, hz, hprune⟩ := Fallible.bind_eq_ok hprune
    rw [List.pairwise_cons] at hsorted
    have hm := hin m List.mem_cons_self
    obtain ⟨hstep, hrational⟩ := rationalAt_of_pruneNode h hm (hfresh m List.mem_cons_self) hz
    have hwf := h.of_sameShape hstep.shape.symm
    have hin' : ∀ n ∈ ns, n.index < z.1.size := fun n hn =>
      hstep.shape.size.symm ▸ hin n (List.mem_cons_of_mem _ hn)
    have hfresh' : ∀ n ∈ ns, ∀ w ∈ (z.1.node n).state.possible, Untouched z.1.arena w := by
      intro n hn w hw
      rw [hstep.shape.possible] at hw
      refine (hfresh n (List.mem_cons_of_mem _ hn) w hw).within h.consistent ?_ hstep.within
      intro hwm
      have heq := h.apart m n hm (hin n (List.mem_cons_of_mem _ hn)) w hwm hw
      exact absurd (hsorted.1 n hn) (heq ▸ Nat.lt_irrefl _)
    obtain ⟨hrest, hrationals⟩ := ih hwf hin' hsorted.2 hfresh' hprune
    refine ⟨(hstep.mono ?_).trans (hrest.mono ?_), fun n hn => ?_⟩
    · intro w hw
      exact ⟨m, List.mem_cons_self, hw⟩
    · rintro w ⟨n, hn, hw⟩
      exact ⟨n, List.mem_cons_of_mem _ hn, hstep.shape.possible ▸ hw⟩
    · rcases List.mem_cons.1 hn with rfl | hn
      -- the rule at the first node outlasts the pruning of the later ones
      · refine hrational.of_within hwf (hstep.shape.size.symm ▸ hm) hrest ?_
        rintro w ⟨n', hn', hw⟩
        exact ⟨n', hin' n' hn', hsorted.1 n' hn', hw⟩
      · exact hrationals n hn

/-- What pruning a tree comes to. -/
structure Rational (g pruned : SearchTree) (count : Nat) : Prop where
  shape : pruned.SameShape g
  nodeCost : ∀ n, (pruned.node n).cost = (g.node n).cost
  costs : pruned.arena.SameCosts g.arena
  rule : ∀ n, n.index < pruned.size → pruned.RationalAt n
  count : count = pruned.arena.prunedCount
  /-- Worlds outside of the tree are not marked. -/
  outside : ∀ w, pruned.Outside w →
    (pruned.arena.world w).pruned = false ∧ (pruned.arena.world w).agentCosts = ∅

/-- Pruning a well-formed tree makes all its nodes follow the rule. -/
theorem rational_of_prune {pruned : SearchTree} {count : Nat} (h : g.WellFormed t)
    (hprune : prune g = .ok (pruned, count)) : Rational g pruned count := by
  have hreset : ({ g with arena := g.arena.resetPruning } : SearchTree).SameShape g :=
    sameShape_arena Arena.sameShape_resetPruning
  have hin : ∀ n ∈ g.nodeIds, n.index < g.size := fun n => mem_nodeIds.1
  have hsorted : g.nodeIds.Pairwise fun m n => m.index < n.index := by
    rw [nodeIds, List.pairwise_map]
    exact List.pairwise_lt_range
  have hfresh : ∀ w, Untouched g.arena.resetPruning w := by
    intro w
    refine ⟨?_, ?_, fun e _ => ?_⟩
    · rw [Arena.world_resetPruning]
    · rw [Arena.world_resetPruning]
    · rw [Arena.edge_resetPruning]
  obtain ⟨hall, hrational⟩ := rationalAt_of_pruneNodes
    (x := ({ g with arena := g.arena.resetPruning }, 0)) (h.of_sameShape hreset.symm) hin hsorted
    (fun n _ w _ => hfresh w) hprune
  refine ⟨hall.shape.trans hreset, hall.nodeCost, hall.within.costs.trans
    Arena.sameCosts_resetPruning, fun n hn => ?_, ?_, fun w hw => ?_⟩
  · exact hrational n (mem_nodeIds.2 (hall.shape.size ▸ hn))
  · exact hall.within.count Arena.prunedCount_resetPruning.symm
  · have houtside := hall.within.world w ?_
    · rw [houtside]
      exact ⟨(hfresh w).pruned, (hfresh w).agentCosts⟩
    · rintro ⟨n, hn, hmem⟩
      refine hw n (hall.shape.size.symm ▸ hin n hn) ?_
      rw [hall.shape.possible]
      exact hmem

end SearchTree

end EpistemicPlanning
