import EpistemicPlanning.Planning.Induction
import EpistemicPlanning.Proofs.SearchTree.Provenance

/-!
# The equations of backward induction

Settling a world writes its cost and those of its steps, and nothing else. Since nodes are settled
after their children, no cost changes once another has been computed from it. In the end every world
and every step of the tree satisfies its equation (`SearchTree.Costed`).
-/
namespace EpistemicPlanning

variable {t : PlanningTask} {arena arena' : Arena} {w v : WorldId} {e : EdgeId} {leaf : Bool}
variable {s : Standing}

/-! ### Standings -/

/-- A standing says of a world of a state whether the goal holds there, and if not, whether some
event fires. -/
def Standing.Correct (t : PlanningTask) (arena : Arena) (state : State) (w : WorldId) :
    Standing → Prop
  | .goal => t.goal.evaluate arena state w = .ok true
  | .stuck => t.goal.evaluate arena state w = .ok false ∧ ¬t.SomeFires arena state w
  | .active => t.goal.evaluate arena state w = .ok false ∧ t.SomeFires arena state w

theorem Updating.correct_of_value_standing {state : State}
    (h : (standing (t := t) arena state w).value = .ok s) :
    s.Correct t arena state w := by
  unfold Updating.standing at h
  rw [value_bind, value_ofExcept] at h
  obtain ⟨b, hgoal, h⟩ := Fallible.bind_eq_ok h
  cases b with
  | true =>
    cases h
    exact hgoal
  | false =>
    simp only [Bool.false_eq_true, if_false] at h
    rw [value_bind] at h
    obtain ⟨b, happ, h⟩ := Fallible.bind_eq_ok h
    have hiff := value_hasApplicableEvent happ
    cases b with
    | true =>
      cases h
      exact ⟨hgoal, hiff.1 rfl⟩
    | false =>
      cases h
      exact ⟨hgoal, fun hsome => Bool.noConfusion (hiff.2 hsome)⟩

theorem Standing.correct_congr {state state' : State} (hs : state.WellFormed)
    (hlinks : state.relation.links = state'.relation.links)
    (hval : ∀ w ∈ state.possible, (arena.world w).valuation = (arena'.world w).valuation)
    (hw : w ∈ state.possible) :
    s.Correct t arena state w ↔ s.Correct t arena' state' w := by
  unfold Correct
  rw [hs.evaluate_congr hlinks hval t.goal hw, PlanningTask.someFires_congr hs hlinks hval hw]

/-! ### Settling one world -/

namespace Induction

/-- The cost of a world follows from its steps, and theirs from the worlds they lead to. -/
structure Settled (leaf : Bool) (s : Standing) (w : WorldId) (arena : Arena) : Prop where
  step : ∀ e ∈ (arena.world w).outgoing,
    (arena.edge e).cost = (arena.world (arena.edge e).child).cost.successor
  world : (arena.world w).cost =
    worldCost leaf ((arena.world w).outgoing.map fun e => (arena.edge e).cost) s

/-- Writing to other worlds and steps leaves a world settled. -/
theorem Settled.frame (h : Settled leaf s w arena) (hw : arena'.world w = arena.world w)
    (hstep : ∀ e ∈ (arena.world w).outgoing, arena'.edge e = arena.edge e ∧
      arena'.world (arena.edge e).child = arena.world (arena.edge e).child) :
    Settled leaf s w arena' := by
  refine ⟨fun e he => ?_, ?_⟩
  · rw [hw] at he
    rw [(hstep e he).1, (hstep e he).2]
    exact h.step e he
  · rw [hw, h.world]
    congr 1
    refine List.map_congr_left fun e he => ?_
    rw [(hstep e he).1]

/-- Writes the costs of some edges. -/
def writeCosts (arena : Arena) (edges : List (EdgeId × Cost)) : Arena :=
  edges.foldl (fun arena (e, c) => arena.modifyEdge e fun edge => { edge with cost := c }) arena

theorem sameShape_writeCosts {edges : List (EdgeId × Cost)} :
    (writeCosts arena edges).SameShape arena := by
  induction edges generalizing arena with
  | nil => exact .refl arena
  | cons p edges ih => exact (@ih _).trans (Arena.sameShape_modifyEdge fun _ => rfl)

theorem world_writeCosts {edges : List (EdgeId × Cost)} :
    (writeCosts arena edges).world w = arena.world w := by
  induction edges generalizing arena with
  | nil => rfl
  | cons p edges ih => exact @ih _

theorem edge_writeCosts_of_not_mem {edges : List (EdgeId × Cost)} (h : e ∉ edges.map Prod.fst) :
    (writeCosts arena edges).edge e = arena.edge e := by
  induction edges generalizing arena with
  | nil => rfl
  | cons p edges ih =>
    rw [List.map_cons, List.mem_cons, not_or] at h
    exact (ih h.2).trans (Arena.edge_modifyEdge_of_ne h.1 _)

theorem edge_writeCosts_of_mem {es : List EdgeId} {f : EdgeId → Cost} (he : e ∈ es)
    (hin : e.index < arena.edges.size) :
    (writeCosts arena (es.map fun e => (e, f e))).edge e = { arena.edge e with cost := f e } := by
  induction es generalizing arena with
  | nil => cases he
  | cons d es ih =>
    change (writeCosts (arena.modifyEdge d _) _).edge e = _
    by_cases hrest : e ∈ es
    · rw [ih hrest (by simpa using hin)]
      by_cases hd : e = d
      · subst hd
        rw [Arena.edge_modifyEdge_self hin]
      · rw [Arena.edge_modifyEdge_of_ne hd]
    · obtain rfl : e = d := (List.mem_cons.1 he).resolve_right hrest
      rw [edge_writeCosts_of_not_mem (by simpa using hrest), Arena.edge_modifyEdge_self hin]

theorem settleWorld_eq : settleWorld leaf arena w s =
    (writeCosts arena (edgeCosts arena w)).modifyWorld w fun world =>
      { world with cost := worldCost leaf ((edgeCosts arena w).map Prod.snd) s } := rfl

theorem map_fst_edgeCosts : (edgeCosts arena w).map Prod.fst = (arena.world w).outgoing := by
  simp [edgeCosts, Function.comp_def]

theorem sameShape_settleWorld : (settleWorld leaf arena w s).SameShape arena := by
  rw [settleWorld_eq]
  refine .trans (Arena.sameShape_modifyWorld ?_) sameShape_writeCosts
  intro x
  rfl

theorem world_settleWorld_of_ne (h : v ≠ w) :
    (settleWorld leaf arena w s).world v = arena.world v := by
  rw [settleWorld_eq, Arena.world_modifyWorld_of_ne h, world_writeCosts]

theorem edge_settleWorld_of_not_mem (h : e ∉ (arena.world w).outgoing) :
    (settleWorld leaf arena w s).edge e = arena.edge e := by
  rw [settleWorld_eq, Arena.edge_modifyWorld, edge_writeCosts_of_not_mem]
  rwa [map_fst_edgeCosts]

theorem settled_settleWorld (h : arena.Consistent) (hw : w.index < arena.worlds.size) :
    Settled leaf s w (settleWorld leaf arena w s) := by
  have hshape : (settleWorld leaf arena w s).SameShape arena := sameShape_settleWorld
  have hedge : ∀ e ∈ (arena.world w).outgoing, (settleWorld leaf arena w s).edge e =
      { arena.edge e with cost := (arena.world (arena.edge e).child).cost.successor } := by
    intro e he
    rw [settleWorld_eq, Arena.edge_modifyWorld, edgeCosts,
      edge_writeCosts_of_mem he ((h.outgoing w e).1 he).1]
  refine ⟨fun e he => ?_, ?_⟩
  · rw [hshape.outgoing] at he
    have hne : (arena.edge e).child ≠ w := by
      obtain ⟨hin, hparent⟩ := (h.outgoing w e).1 he
      have hends := (h.ends e hin).1
      rintro heq
      rw [hparent, heq] at hends
      exact Nat.lt_irrefl _ hends
    rw [hedge e he, world_settleWorld_of_ne hne]
  · have hcosts : (arena.world w).outgoing.map
        (fun e => ((settleWorld leaf arena w s).edge e).cost) =
        (edgeCosts arena w).map Prod.snd := by
      rw [edgeCosts, List.map_map]
      refine List.map_congr_left fun e he => ?_
      rw [hedge e he]
      rfl
    rw [hshape.outgoing, hcosts, settleWorld_eq, Arena.world_modifyWorld_self]
    rwa [sameShape_writeCosts.worlds]

/-! ### Settling the worlds of a node -/

/-- Settles some worlds one after the other. -/
def settleWorlds (leaf : Bool) (arena : Arena) (l : List (WorldId × Standing)) : Arena :=
  l.foldl (fun arena (w, s) => settleWorld leaf arena w s) arena

variable {l : List (WorldId × Standing)}

theorem settleWorlds_cons {p : WorldId × Standing} :
    settleWorlds leaf arena (p :: l) = settleWorlds leaf (settleWorld leaf arena p.1 p.2) l := rfl

theorem sameShape_settleWorlds : (settleWorlds leaf arena l).SameShape arena := by
  induction l generalizing arena with
  | nil => exact .refl arena
  | cons p l ih => exact (@ih _).trans sameShape_settleWorld

theorem world_settleWorlds_of_not_mem (h : w ∉ l.map Prod.fst) :
    (settleWorlds leaf arena l).world w = arena.world w := by
  induction l generalizing arena with
  | nil => rfl
  | cons p l ih =>
    rw [List.map_cons, List.mem_cons, not_or] at h
    rw [settleWorlds_cons, ih h.2, world_settleWorld_of_ne h.1]

theorem edge_settleWorlds_of_not_mem (h : arena.Consistent)
    (he : (arena.edge e).parent ∉ l.map Prod.fst) :
    (settleWorlds leaf arena l).edge e = arena.edge e := by
  induction l generalizing arena with
  | nil => rfl
  | cons p l ih =>
    rw [List.map_cons, List.mem_cons, not_or] at he
    have hshape : (settleWorld leaf arena p.1 p.2).SameShape arena := sameShape_settleWorld
    rw [settleWorlds_cons, ih (h.of_sameShape hshape.symm) (hshape.parent ▸ he.2)]
    exact edge_settleWorld_of_not_mem fun hmem => he.1 ((h.outgoing p.1 e).1 hmem).2

/-- Settling some worlds, none of which was made of another, makes the equations of all true. -/
theorem settled_settleWorlds (h : arena.Consistent)
    (hin : ∀ p ∈ l, p.1.index < arena.worlds.size) (hnodup : (l.map Prod.fst).Nodup)
    (hapart : ∀ p ∈ l, ∀ e ∈ (arena.world p.1).outgoing,
      (arena.edge e).child ∉ l.map Prod.fst) :
    ∀ p ∈ l, Settled leaf p.2 p.1 (settleWorlds leaf arena l) := by
  induction l generalizing arena with
  | nil =>
    intro p hp
    cases hp
  | cons q l ih =>
    rw [List.map_cons, List.nodup_cons] at hnodup
    have hshape : (settleWorld leaf arena q.1 q.2).SameShape arena := sameShape_settleWorld
    have hconsistent := h.of_sameShape hshape.symm
    intro p hp
    rw [settleWorlds_cons]
    rcases List.mem_cons.1 hp with rfl | hp
    · -- the rest of the worlds leaves this one, its steps and where they lead alone
      refine (settled_settleWorld h (hin p List.mem_cons_self)).frame
        (world_settleWorlds_of_not_mem hnodup.1) fun e he => ⟨?_, ?_⟩
      · refine edge_settleWorlds_of_not_mem hconsistent ?_
        rw [((hconsistent.outgoing p.1 e).1 he).2]
        exact hnodup.1
      · refine world_settleWorlds_of_not_mem fun hmem => ?_
        rw [hshape.outgoing] at he
        rw [hshape.child] at hmem
        exact hapart p List.mem_cons_self e he (List.mem_cons_of_mem _ hmem)
    · refine ih hconsistent (fun p hp => ?_) hnodup.2 (fun p hp e he hmem => ?_) p hp
      · rw [hshape.worlds]
        exact hin p (List.mem_cons_of_mem _ hp)
      · rw [hshape.outgoing] at he
        rw [hshape.child] at hmem
        exact hapart p (List.mem_cons_of_mem _ hp) e he (List.mem_cons_of_mem _ hmem)

end Induction

/-! ### Settling nodes -/

namespace SearchTree

open Induction

variable {g g' : SearchTree} {m n : NodeId} {limit : Nat} {ss : List Standing}

/-- The worlds of a node satisfy their equations, and its cost is that of its designated worlds. -/
structure CostedAt (t : PlanningTask) (limit : Nat) (g : SearchTree) (n : NodeId) : Prop where
  worlds : ∀ w ∈ (g.node n).state.possible, ∃ s : Standing,
    s.Correct t g.arena (g.node n).state w ∧
      Settled (decide ((g.node n).depth = limit)) s w g.arena
  cost : (g.node n).cost = g.designatedCost n

/-- All nodes satisfy their equations, and nothing is known of other worlds. -/
structure Costed (t : PlanningTask) (limit : Nat) (g : SearchTree) : Prop where
  node : ∀ n, n.index < g.size → g.CostedAt t limit n
  outside : ∀ w, g.Outside w → (g.arena.world w).cost = .undefined

/-- A well-formed tree that ends at a depth, with its costs. -/
structure CostedTo (t : PlanningTask) (limit : Nat) (g : SearchTree) : Prop where
  wellFormed : g.WellFormed t
  depth : ∀ n, n.index < g.size → (g.node n).depth ≤ limit
  costed : g.Costed t limit

theorem designatedCost_eq (hn : n.index < g.size) :
    g.designatedCost n = (((g.node n).state.designated.toList.map fun w =>
      (g.arena.world w).cost).max?).getD .undefined := by
  simp [designatedCost, designated, node?_eq_some hn]

theorem designatedCost_congr (hs : g'.SameShape g) (hn : n.index < g.size)
    (h : ∀ w ∈ (g.node n).state.designated, (g'.arena.world w).cost = (g.arena.world w).cost) :
    g'.designatedCost n = g.designatedCost n := by
  rw [designatedCost_eq hn, designatedCost_eq (hs.size.symm ▸ hn), hs.designated]
  congr 2
  exact List.map_congr_left h

theorem arena_settleNode :
    (settleNode leaf g n ss).arena =
      settleWorlds leaf g.arena ((g.node n).state.possible.zip ss) := rfl

theorem sameShape_settleNode : (settleNode leaf g n ss).SameShape g := by
  unfold settleNode
  exact .trans (sameShape_modify rfl) (sameShape_arena sameShape_settleWorlds)

theorem node_settleNode_self (hn : n.index < g.size) :
    (settleNode leaf g n ss).node n =
      { g.node n with cost := ({ g with arena := (settleNode leaf g n ss).arena } :
          SearchTree).designatedCost n } :=
  node_modify_self (g := { g with arena := (settleNode leaf g n ss).arena }) _ hn

theorem designatedCost_settleNode (hn : n.index < g.size) :
    (settleNode leaf g n ss).designatedCost n =
      ({ g with arena := (settleNode leaf g n ss).arena } : SearchTree).designatedCost n := by
  refine designatedCost_congr ?_ hn fun _ _ => rfl
  exact sameShape_modify (g := { g with arena := (settleNode leaf g n ss).arena }) rfl

theorem node_settleNode_of_ne (h : m ≠ n) : (settleNode leaf g n ss).node m = g.node m :=
  node_modify_of_ne (g := { g with arena := _ }) _ h

theorem map_fst_zip_subset {ws : List WorldId} (h : w ∈ (ws.zip ss).map Prod.fst) : w ∈ ws := by
  obtain ⟨⟨_, s⟩, hp, rfl⟩ := List.mem_map.1 h
  exact (List.of_mem_zip hp).1

theorem world_settleNode_of_not_mem (hw : w ∉ (g.node n).state.possible) :
    (settleNode leaf g n ss).arena.world w = g.arena.world w := by
  rw [arena_settleNode]
  exact world_settleWorlds_of_not_mem fun h => hw (map_fst_zip_subset h)

theorem edge_settleNode_of_not_mem (h : g.arena.Consistent)
    (he : (g.arena.edge e).parent ∉ (g.node n).state.possible) :
    (settleNode leaf g n ss).arena.edge e = g.arena.edge e := by
  rw [arena_settleNode]
  exact edge_settleWorlds_of_not_mem h fun hmem => he (map_fst_zip_subset hmem)

/-- The standings listed for a node are those of its worlds, in order. -/
def Standings (t : PlanningTask) (g : SearchTree) (n : NodeId) (ss : List Standing) : Prop :=
  List.Forall₂ (fun w s => Standing.Correct t g.arena (g.node n).state w s)
    (g.node n).state.possible ss

theorem correct_of_sameShape (hs : g.SameShape g') (hwf : (g.node n).state.WellFormed)
    (hw : w ∈ (g.node n).state.possible) :
    s.Correct t g.arena (g.node n).state w ↔ s.Correct t g'.arena (g'.node n).state w :=
  Standing.correct_congr hwf hs.links (fun _ _ => hs.arena.valuation) hw

theorem Standings.of_sameShape (h : g.Standings t n ss) (hwf : (g.node n).state.WellFormed)
    (hs : g.SameShape g') : g'.Standings t n ss := by
  unfold Standings at *
  rw [List.forall₂_iff_zip] at *
  refine ⟨hs.possible ▸ h.1, fun {w s} hmem => ?_⟩
  rw [← hs.possible] at hmem
  exact (correct_of_sameShape hs hwf (List.of_mem_zip hmem).1).1 (h.2 hmem)

theorem costedAt_settleNode (h : g.WellFormed t) (hn : n.index < g.size)
    (hss : g.Standings t n ss) :
    (settleNode (decide ((g.node n).depth = limit)) g n ss).CostedAt t limit n := by
  have hshape : (settleNode (decide ((g.node n).depth = limit)) g n ss).SameShape g :=
    sameShape_settleNode
  obtain ⟨hlength, hcorrect⟩ := List.forall₂_iff_zip.1 hss
  have hfst : ((g.node n).state.possible.zip ss).map Prod.fst = (g.node n).state.possible :=
    List.map_fst_zip (Nat.le_of_eq hlength)
  refine ⟨fun w hw => ?_, ?_⟩
  · rw [hshape.possible] at hw
    obtain ⟨⟨_, s⟩, hp, rfl⟩ := List.mem_map.1 (hfst.symm ▸ hw)
    refine ⟨s, (correct_of_sameShape hshape.symm (h.state n hn) hw).1 (hcorrect hp), ?_⟩
    rw [hshape.depth, arena_settleNode]
    refine settled_settleWorlds h.consistent (fun p hp => ?_) ?_ (fun p hp e he => ?_) _ hp
    · exact h.inArena n hn p.1 (List.of_mem_zip hp).1
    · rw [hfst]
      exact (h.state n hn).nodup
    · rw [hfst]
      exact h.child_not_mem hn hn (Nat.le_refl _) (List.of_mem_zip hp).1 he
  · rw [node_settleNode_self hn, designatedCost_settleNode hn]

/-- Settling an earlier node leaves the equations of a later one true. -/
theorem CostedAt.settleNode (hm : g.CostedAt t limit m) (h : g.WellFormed t)
    (hin : m.index < g.size) (hlt : n.index < m.index) :
    (settleNode leaf g n ss).CostedAt t limit m := by
  have hshape : (Induction.settleNode leaf g n ss).SameShape g := sameShape_settleNode
  have hn := Nat.lt_trans hlt hin
  have hne : m ≠ n := by
    rintro rfl
    exact Nat.lt_irrefl _ hlt
  -- steps from the later node begin and end outside of the earlier one
  have hother : ∀ w ∈ (g.node m).state.possible, w ∉ (g.node n).state.possible :=
    fun w hw hw' => hne (h.apart m n hin hn w hw hw')
  refine ⟨fun w hw => ?_, ?_⟩
  · rw [node_settleNode_of_ne hne] at hw ⊢
    obtain ⟨s, hcorrect, hsettled⟩ := hm.worlds w hw
    refine ⟨s, ?_, hsettled.frame (world_settleNode_of_not_mem (hother w hw)) fun e he => ⟨?_, ?_⟩⟩
    · refine (Standing.correct_congr (h.state m hin) rfl (fun _ _ => ?_) hw).1 hcorrect
      exact hshape.symm.arena.valuation
    · refine edge_settleNode_of_not_mem h.consistent ?_
      rw [((h.consistent.outgoing w e).1 he).2]
      exact hother w hw
    · refine world_settleNode_of_not_mem ?_
      exact h.child_not_mem hin hn (Nat.le_of_lt hlt) hw he
  · rw [node_settleNode_of_ne hne, hm.cost]
    refine (designatedCost_congr hshape hin fun w hw => ?_).symm
    have hw' := (h.state m hin).designated_possible w hw
    rw [world_settleNode_of_not_mem (hother w hw')]

/-- Settles some nodes one after the other. -/
def settleNodes (limit : Nat) (g : SearchTree) (l : List (NodeId × List Standing)) :
    SearchTree :=
  l.foldl (fun tree (n, ss) => settleNode (decide ((tree.node n).depth = limit)) tree n ss) g

variable {l : List (NodeId × List Standing)}

theorem sameShape_settleNodes : (settleNodes limit g l).SameShape g := by
  induction l generalizing g with
  | nil => exact .refl g
  | cons p l ih => exact (@ih _).trans sameShape_settleNode

theorem world_settleNodes_of_outside (hl : ∀ p ∈ l, p.1.index < g.size) (hw : g.Outside w) :
    (settleNodes limit g l).arena.world w = g.arena.world w := by
  induction l generalizing g with
  | nil => rfl
  | cons p l ih =>
    have hshape : (Induction.settleNode (decide ((g.node p.1).depth = limit)) g p.1
      p.2).SameShape g := sameShape_settleNode
    refine (@ih _ (fun q hq => ?_) (hw.of_sameShape hshape)).trans
      (world_settleNode_of_not_mem (hw p.1 (hl p List.mem_cons_self)))
    rw [hshape.size]
    exact hl q (List.mem_cons_of_mem _ hq)

theorem CostedAt.settleNodes (hm : g.CostedAt t limit m) (h : g.WellFormed t)
    (hin : m.index < g.size) (hlt : ∀ p ∈ l, p.1.index < m.index) :
    (settleNodes limit g l).CostedAt t limit m := by
  induction l generalizing g with
  | nil => exact hm
  | cons p l ih =>
    have hshape : g.SameShape (Induction.settleNode (decide ((g.node p.1).depth = limit)) g p.1
      p.2) := sameShape_settleNode.symm
    refine ih (hm.settleNode h hin (hlt p List.mem_cons_self)) (h.of_sameShape hshape)
      (hshape.size ▸ hin) fun q hq => hlt q (List.mem_cons_of_mem _ hq)

/-- Settling nodes in descending order makes the equations of all of them true. -/
theorem costedAt_settleNodes (h : g.WellFormed t)
    (hl : ∀ p ∈ l, p.1.index < g.size ∧ g.Standings t p.1 p.2)
    (hsorted : l.Pairwise fun p q => q.1.index < p.1.index) :
    ∀ p ∈ l, (settleNodes limit g l).CostedAt t limit p.1 := by
  induction l generalizing g with
  | nil =>
    intro p hp
    cases hp
  | cons q l ih =>
    rw [List.pairwise_cons] at hsorted
    obtain ⟨hq, hss⟩ := hl q List.mem_cons_self
    have hshape : g.SameShape (Induction.settleNode (decide ((g.node q.1).depth = limit)) g q.1
      q.2) := sameShape_settleNode.symm
    have hwf := h.of_sameShape hshape
    intro p hp
    rcases List.mem_cons.1 hp with rfl | hp
    · exact (costedAt_settleNode h hq hss).settleNodes hwf (hshape.size ▸ hq) hsorted.1
    · refine ih hwf (fun p hp => ?_) hsorted.2 p hp
      obtain ⟨hin, hss⟩ := hl p (List.mem_cons_of_mem _ hp)
      exact ⟨hshape.size ▸ hin, hss.of_sameShape (h.state p.1 hin) hshape⟩

theorem pairwise_nodeIds_reverse :
    g.nodeIds.reverse.Pairwise fun m n => n.index < m.index := by
  rw [List.pairwise_reverse, nodeIds, List.pairwise_map]
  exact List.pairwise_lt_range

/-- The tree with all costs computed anew, for a bound on its depth. -/
def withCosts (t : PlanningTask) (limit : Nat) (g : SearchTree) : Except ModelError SearchTree :=
  (Updating.standings (t := t) g.arena (g.nodeIds.reverse.map g.node)).value.map fun sss =>
    settleNodes limit { g with arena := g.arena.resetCosts } (g.nodeIds.reverse.zip sss)

theorem standings_of_value {ids : List NodeId} {sss : List (List Standing)}
    (h : (Updating.standings (t := t) g.arena (ids.map g.node)).value = .ok sss) :
    List.Forall₂ (fun n ss => g.Standings t n ss) ids sss := by
  unfold Updating.standings at h
  rw [Updating.value_mapM] at h
  have hall := List.forall₂_map_left_iff.1 (Fallible.mapM_eq_ok h)
  refine hall.imp fun n ss hss => ?_
  rw [Updating.value_mapM] at hss
  exact (Fallible.mapM_eq_ok hss).imp fun w s hs => Updating.correct_of_value_standing hs

theorem sameShape_withCosts {T : SearchTree} (hT : g.withCosts t limit = .ok T) :
    T.SameShape g := by
  obtain ⟨sss, _, rfl⟩ := Fallible.map_eq_ok hT
  exact sameShape_settleNodes.trans (sameShape_arena Arena.sameShape_resetCosts)

/-- The nodes are listed with their standings, once each. -/
theorem map_fst_standings {sss : List (List Standing)}
    (h : (Updating.standings (t := t) g.arena (g.nodeIds.reverse.map g.node)).value = .ok sss) :
    (g.nodeIds.reverse.zip sss).map Prod.fst = g.nodeIds.reverse :=
  List.map_fst_zip (Nat.le_of_eq (standings_of_value h).length_eq)

/-- Computing all costs of a well-formed tree makes all equations true. -/
theorem costed_withCosts {T : SearchTree} (h : g.WellFormed t)
    (hT : g.withCosts t limit = .ok T) : T.Costed t limit := by
  have hshape := sameShape_withCosts hT
  obtain ⟨sss, hvalue, rfl⟩ := Fallible.map_eq_ok hT
  -- all standings were told before the first node was settled
  obtain ⟨_, hzip⟩ := List.forall₂_iff_zip.1 (standings_of_value hvalue)
  have hfst := map_fst_standings hvalue
  have hin : ∀ p ∈ g.nodeIds.reverse.zip sss, p.1.index < g.size := fun p hp =>
    mem_nodeIds.1 (List.mem_reverse.1 (List.of_mem_zip hp).1)
  have hreset : ({ g with arena := g.arena.resetCosts } : SearchTree).SameShape g :=
    sameShape_arena Arena.sameShape_resetCosts
  have hwf := h.of_sameShape hreset.symm
  refine ⟨fun n hn => ?_, fun w hw => ?_⟩
  · rw [hshape.size] at hn
    have hid : n ∈ (g.nodeIds.reverse.zip sss).map Prod.fst := by
      rw [hfst, List.mem_reverse]
      exact mem_nodeIds.2 hn
    obtain ⟨p, hp, rfl⟩ := List.mem_map.1 hid
    refine costedAt_settleNodes hwf (fun p hp => ?_) ?_ p hp
    · exact ⟨hin p hp, (hzip hp).of_sameShape (h.state p.1 (hin p hp)) hreset.symm⟩
    · rw [← List.pairwise_map (f := Prod.fst) (R := fun m n : NodeId => n.index < m.index), hfst]
      exact pairwise_nodeIds_reverse
  · have hleft : (settleNodes limit { g with arena := g.arena.resetCosts }
        (g.nodeIds.reverse.zip sss)).arena.world w = g.arena.resetCosts.world w :=
      world_settleNodes_of_outside hin ((hw.of_sameShape hshape.symm).of_sameShape hreset)
    rw [hleft, Arena.world_resetCosts]

end SearchTree

end EpistemicPlanning
