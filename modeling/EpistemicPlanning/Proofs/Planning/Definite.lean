import EpistemicPlanning.Proofs.Cost
import EpistemicPlanning.Proofs.Planning.Rounds

/-!
# Definite costs

Computing costs leaves no world of a node without a cost, and where no node is at the bound on the
depth, no cost that is computed is provisional. Nothing is asked of the provenance that a task's
arena comes with: a step may lead anywhere. After a round that leaves nothing in the frontier, the
costs of the root are therefore known (`Run.AfterRound.rootSettled`).
-/
namespace EpistemicPlanning

variable {t : PlanningTask} {arena : Arena} {g T : SearchTree} {n : NodeId} {w v : WorldId}
variable {leaf : Bool} {s : Standing} {ss : List Standing} {limit : Nat}
variable {l : List (NodeId × List Standing)}

namespace Induction

theorem worldCost_ne_undefined (costs : List Cost) : worldCost leaf costs s ≠ .undefined := by
  cases s with
  | goal => exact Cost.noConfusion
  | stuck => exact Cost.noConfusion
  | active =>
    cases leaf with
    | true => exact Cost.noConfusion
    | false => exact Cost.best_ne_undefined costs

/-- Away from the bound on the depth, only provisional steps make a cost provisional. -/
theorem isProvisional_worldCost {costs : List Cost} (h : ∀ c ∈ costs, c.isProvisional = false) :
    (worldCost false costs s).isProvisional = false := by
  cases s with
  | goal => rfl
  | stuck => rfl
  | active => exact Cost.isProvisional_best h

theorem cost_settleWorld_self (hw : w.index < arena.worlds.size) :
    ((settleWorld leaf arena w s).world w).cost =
      worldCost leaf ((edgeCosts arena w).map Prod.snd) s := by
  rw [settleWorld_eq, Arena.world_modifyWorld_self]
  rwa [sameShape_writeCosts.worlds]

/-- Whatever is computed from costs with a property and has it again is had by all worlds, if all
had it before. -/
theorem cost_settleWorld {P : Cost → Prop} (hw : w.index < arena.worlds.size)
    (hcost : P (worldCost leaf ((edgeCosts arena w).map Prod.snd) s))
    (hv : v ≠ w → P (arena.world v).cost) : P ((settleWorld leaf arena w s).world v).cost := by
  by_cases hvw : v = w
  · rw [hvw, cost_settleWorld_self hw]
    exact hcost
  · rw [world_settleWorld_of_ne hvw]
    exact hv hvw

/-! ### Every world gets a cost -/

theorem defined_settleWorlds {l : List (WorldId × Standing)}
    (hl : ∀ p ∈ l, p.1.index < arena.worlds.size)
    (hv : v ∈ l.map Prod.fst ∨ (arena.world v).cost ≠ .undefined) :
    ((settleWorlds leaf arena l).world v).cost ≠ .undefined := by
  induction l generalizing arena with
  | nil => exact hv.resolve_left List.not_mem_nil
  | cons p l ih =>
    rw [settleWorlds_cons]
    refine ih (fun q hq => ?_) (or_iff_not_imp_left.2 fun hrest => ?_)
    · rw [sameShape_settleWorld.worlds]
      exact hl q (List.mem_cons_of_mem _ hq)
    · refine cost_settleWorld (P := (· ≠ .undefined)) (hl p List.mem_cons_self)
        (worldCost_ne_undefined _) fun hvp => hv.resolve_left fun hmem => ?_
      exact (List.mem_cons.1 hmem).elim hvp hrest

/-! ### No cost is provisional -/

/-- No world has a provisional cost. -/
def Definite (arena : Arena) : Prop := ∀ w, (arena.world w).cost.isProvisional = false

theorem definite_resetCosts : Definite arena.resetCosts := fun w => by
  rw [Arena.world_resetCosts]
  rfl

theorem Definite.edgeCosts (h : Definite arena) :
    ∀ c ∈ (edgeCosts arena w).map Prod.snd, c.isProvisional = false := by
  intro c hc
  rw [Induction.edgeCosts, List.map_map] at hc
  obtain ⟨e, _, rfl⟩ := List.mem_map.1 hc
  exact (Cost.isProvisional_successor _).trans (h _)

theorem Definite.settleWorlds {l : List (WorldId × Standing)} (h : Definite arena)
    (hl : ∀ p ∈ l, p.1.index < arena.worlds.size) : Definite (settleWorlds false arena l) := by
  induction l generalizing arena with
  | nil => exact h
  | cons p l ih =>
    refine ih (fun v => ?_) fun q hq => ?_
    · exact cost_settleWorld (P := (·.isProvisional = false)) (hl p List.mem_cons_self)
        (isProvisional_worldCost h.edgeCosts) fun _ => h v
    · rw [sameShape_settleWorld.worlds]
      exact hl q (List.mem_cons_of_mem _ hq)

end Induction

namespace SearchTree

open Induction

theorem inArena_of_mem_zip (hs : g.Sound t) (hn : n.index < g.size) :
    ∀ p ∈ (g.node n).state.possible.zip ss, p.1.index < g.arena.worlds.size :=
  fun _ hp => hs.inArena n hn _ (List.of_mem_zip hp).1

/-- Settling nodes gives a cost to each of their worlds, and takes none away. -/
theorem defined_settleNodes (hs : g.Sound t)
    (hl : ∀ p ∈ l, p.1.index < g.size ∧ (g.node p.1).state.possible.length ≤ p.2.length)
    (hv : (∃ p ∈ l, v ∈ (g.node p.1).state.possible) ∨ (g.arena.world v).cost ≠ .undefined) :
    ((settleNodes limit g l).arena.world v).cost ≠ .undefined := by
  induction l generalizing g with
  | nil =>
    refine hv.resolve_left fun ⟨_, hp, _⟩ => ?_
    exact absurd hp List.not_mem_nil
  | cons p l ih =>
    obtain ⟨hp, hlength⟩ := hl p List.mem_cons_self
    have hshape : (settleNode (decide ((g.node p.1).depth = limit)) g p.1 p.2).SameShape g :=
      sameShape_settleNode
    refine ih (hs.of_sameShape hshape.symm) (fun q hq => ?_) (or_iff_not_imp_left.2 fun hrest => ?_)
    · rw [hshape.size, hshape.possible]
      exact hl q (List.mem_cons_of_mem _ hq)
    · refine defined_settleWorlds (inArena_of_mem_zip hs hp) (hv.imp_left fun ⟨q, hq, hmem⟩ => ?_)
      rw [List.map_fst_zip hlength]
      rcases List.mem_cons.1 hq with rfl | hq
      · exact hmem
      · exact absurd ⟨q, hq, hshape.possible.symm ▸ hmem⟩ hrest

/-- Where no node is at the bound on the depth, settling nodes makes no cost provisional. -/
theorem definite_settleNodes (hs : g.Sound t) (hdefinite : Definite g.arena)
    (hl : ∀ p ∈ l, p.1.index < g.size ∧ (g.node p.1).depth ≠ limit) :
    Definite (settleNodes limit g l).arena := by
  induction l generalizing g with
  | nil => exact hdefinite
  | cons p l ih =>
    obtain ⟨hp, hdepth⟩ := hl p List.mem_cons_self
    have hinner : decide ((g.node p.1).depth = limit) = false := decide_eq_false hdepth
    have hshape : (settleNode (decide ((g.node p.1).depth = limit)) g p.1 p.2).SameShape g :=
      sameShape_settleNode
    refine ih (hs.of_sameShape hshape.symm) ?_ fun q hq => ?_
    · change Definite (settleNode (decide ((g.node p.1).depth = limit)) g p.1 p.2).arena
      rw [hinner, arena_settleNode]
      exact hdefinite.settleWorlds (inArena_of_mem_zip hs hp)
    · rw [hshape.size, hshape.depth]
      exact hl q (List.mem_cons_of_mem _ hq)

/-! ### All costs of a tree -/

theorem sound_resetCosts (hs : g.Sound t) :
    ({ g with arena := g.arena.resetCosts } : SearchTree).Sound t :=
  hs.of_sameShape (sameShape_arena (g := g) Arena.sameShape_resetCosts).symm

theorem defined_withCosts (hs : g.Sound t) (hT : g.withCosts t limit = .ok T)
    (hn : n.index < g.size) (hv : v ∈ (g.node n).state.possible) :
    (T.arena.world v).cost ≠ .undefined := by
  obtain ⟨sss, hvalue, rfl⟩ := Fallible.map_eq_ok hT
  obtain ⟨_, hzip⟩ := List.forall₂_iff_zip.1 (standings_of_value hvalue)
  have hid : n ∈ (g.nodeIds.reverse.zip sss).map Prod.fst := by
    rw [map_fst_standings hvalue, List.mem_reverse]
    exact mem_nodeIds.2 hn
  obtain ⟨p, hp, rfl⟩ := List.mem_map.1 hid
  refine defined_settleNodes (sound_resetCosts hs) (fun q hq => ⟨?_, ?_⟩) (Or.inl ⟨p, hp, hv⟩)
  · exact mem_nodeIds.1 (List.mem_reverse.1 (List.of_mem_zip hq).1)
  · exact Nat.le_of_eq (hzip hq).length_eq

theorem definite_withCosts (hs : g.Sound t) (hT : g.withCosts t limit = .ok T)
    (hdepth : ∀ n, n.index < g.size → (g.node n).depth ≠ limit) : Definite T.arena := by
  obtain ⟨sss, _, rfl⟩ := Fallible.map_eq_ok hT
  refine definite_settleNodes (sound_resetCosts hs) definite_resetCosts fun p hp => ?_
  have hin := mem_nodeIds.1 (List.mem_reverse.1 (List.of_mem_zip hp).1)
  exact ⟨hin, hdepth p.1 hin⟩

end SearchTree

/-! ### After a round -/

namespace Run

open SearchTree Induction

variable {c : PlannerConfig} {r : Run}

/-- The tree of a run after a round is one with all its costs computed. -/
theorem AfterRound.withCosts (hacc : t.Accepted) (hr : r.AfterRound t c) :
    ∃ g : SearchTree, g.Sound t ∧ g.withCosts t r.limit = .ok r.tree ∧ r.frontier = g.level r.limit := by
  obtain ⟨g, hg, hT⟩ := Fallible.bind_eq_ok hr.tree
  obtain ⟨k, hcut⟩ := PlanningTask.cutAt_of_unfoldTo hacc hg
  obtain ⟨h, hlevel⟩ := hr.level
  have hunfolds := hlevel.unfolds
  rw [hg] at hunfolds
  cases hunfolds
  exact ⟨g, hcut.unfolding.sound hacc, hT, hlevel.frontier⟩

theorem AfterRound.defined (hacc : t.Accepted) (hr : r.AfterRound t c) (hn : n.index < r.tree.size)
    (hw : w ∈ (r.tree.node n).state.possible) : (r.tree.arena.world w).cost ≠ .undefined := by
  obtain ⟨g, hsound, hT, _⟩ := hr.withCosts hacc
  have hshape := sameShape_withCosts hT
  rw [hshape.size] at hn
  rw [hshape.possible] at hw
  exact defined_withCosts hsound hT hn hw

theorem AfterRound.definite (hacc : t.Accepted) (hr : r.AfterRound t c)
    (hfrontier : r.frontier = []) : Definite r.tree.arena := by
  obtain ⟨g, hsound, hT, hlevel⟩ := hr.withCosts hacc
  rw [hfrontier] at hlevel
  refine definite_withCosts hsound hT fun n hn hdepth => ?_
  have hmem : n ∈ g.level r.limit :=
    List.mem_filter.2 ⟨mem_nodeIds.2 hn, decide_eq_true hdepth⟩
  rw [← hlevel] at hmem
  exact List.not_mem_nil hmem

theorem AfterRound.rootSettled (hacc : t.Accepted) (hr : r.AfterRound t c)
    (hfrontier : r.frontier = []) : r.rootSettled = true := by
  have hroot : root.index < r.tree.size := by
    obtain ⟨g, hsound, hT, _⟩ := hr.withCosts hacc
    rw [(sameShape_withCosts hT).size]
    exact hsound.nonempty
  rw [rootSettled_iff]
  intro w hw
  have hdefinite := hr.definite hacc hfrontier w
  have hdefined := hr.defined hacc hroot hw
  cases hcost : (r.tree.arena.world w).cost with
  | undefined => exact absurd hcost hdefined
  | infinity => rfl
  | finite value provisional =>
    rw [hcost] at hdefinite
    rw [show provisional = false from hdefinite]
    rfl

end Run

end EpistemicPlanning
