import EpistemicPlanning.Planning.Rationality
import EpistemicPlanning.Proofs.Accessibility.Components
import EpistemicPlanning.Proofs.Fallible
import EpistemicPlanning.Proofs.SearchTree.Shape

/-!
# Pruning at one world

Pruning keeps costs. At one world it prunes the steps that satisfy a condition fixed beforehand
(`Rationality.pruneWhere`), counts them, and writes what the agents can be sure of; nothing is
written elsewhere (`Rationality.Within`). What has been written at the world is described by
`Rationality.Judged`.
-/
namespace EpistemicPlanning

variable {arena arena' : Arena} {w v : WorldId} {e : EdgeId}

namespace Arena

/-- Two arenas differ in marks other than costs only. -/
structure SameCosts (a b : Arena) : Prop extends a.SameShape b where
  worldCost : ∀ w, (a.world w).cost = (b.world w).cost
  edgeCost : ∀ e, (a.edge e).cost = (b.edge e).cost

protected theorem SameCosts.refl (a : Arena) : a.SameCosts a :=
  ⟨.refl a, fun _ => rfl, fun _ => rfl⟩

protected theorem SameCosts.trans {a b c : Arena} (h : a.SameCosts b) (h' : b.SameCosts c) :
    a.SameCosts c :=
  ⟨h.toSameShape.trans h'.toSameShape, fun w => (h.worldCost w).trans (h'.worldCost w),
    fun e => (h.edgeCost e).trans (h'.edgeCost e)⟩

theorem sameCosts_modifyWorld {f : World → World} (h : ∀ x, (f x).unmarked = x.unmarked)
    (hcost : ∀ x, (f x).cost = x.cost) : (arena.modifyWorld w f).SameCosts arena :=
  ⟨sameShape_modifyWorld h, fun _ => world_modifyWorld_field World.cost hcost, fun _ => rfl⟩

theorem sameCosts_modifyEdge {f : ProvenanceEdge → ProvenanceEdge}
    (h : ∀ x, (f x).unmarked = x.unmarked) (hcost : ∀ x, (f x).cost = x.cost) :
    (arena.modifyEdge e f).SameCosts arena :=
  ⟨sameShape_modifyEdge h, fun _ => rfl, fun _ => edge_modifyEdge_field ProvenanceEdge.cost hcost⟩

theorem sameCosts_resetPruning : arena.resetPruning.SameCosts arena :=
  ⟨sameShape_resetPruning, fun _ => by rw [world_resetPruning], fun _ => by
    rw [edge_resetPruning]⟩

/-- The number of pruned edges. -/
def prunedCount (arena : Arena) : Nat := arena.edges.countP ProvenanceEdge.pruned

theorem prunedCount_resetPruning : arena.resetPruning.prunedCount = 0 := by
  unfold prunedCount resetPruning
  rw [Array.countP_eq_zero]
  intro e he
  obtain ⟨e', _, rfl⟩ := Array.mem_map.1 he
  exact Bool.false_ne_true

/-- Pruning an edge that is not pruned yet raises the number of pruned edges by one. -/
theorem prunedCount_modifyEdge (hin : e.index < arena.edges.size)
    (hlive : (arena.edge e).pruned = false) :
    (arena.modifyEdge e fun edge => { edge with pruned := true }).prunedCount =
      arena.prunedCount + 1 := by
  have hget : arena.edges.toList[e.index] = arena.edge e := by simp [edge, hin]
  unfold prunedCount modifyEdge
  rw [← Array.countP_toList, ← Array.countP_toList, Array.toList_modify, List.modify_eq_set,
    List.countP_set (by simpa using hin), hget, hlive]
  simp

end Arena

namespace Rationality

variable {x y z : Tally} {q : EdgeId → Bool} {es : List EdgeId} {P Q : WorldId → Prop}

/-! ### What is left alone -/

/-- From `x` to `y`, marks other than costs are written at worlds with `P` and at their steps only,
and newly pruned edges are counted. -/
structure Within (P : WorldId → Prop) (x y : Tally) : Prop where
  costs : y.1.SameCosts x.1
  world : ∀ v, ¬P v → y.1.world v = x.1.world v
  edge : ∀ e, ¬P (x.1.edge e).parent → y.1.edge e = x.1.edge e
  count : x.2 = x.1.prunedCount → y.2 = y.1.prunedCount

protected theorem Within.refl (x : Tally) : Within P x x :=
  ⟨.refl x.1, fun _ _ => rfl, fun _ _ => rfl, id⟩

protected theorem Within.trans (h : Within P x y) (h' : Within P y z) : Within P x z where
  costs := h'.costs.trans h.costs
  world v hv := (h'.world v hv).trans (h.world v hv)
  edge e he := by
    refine (h'.edge e ?_).trans (h.edge e he)
    rwa [h.costs.parent]
  count hx := h'.count (h.count hx)

protected theorem Within.mono (h : Within P x y) (hle : ∀ v, P v → Q v) : Within Q x y :=
  ⟨h.costs, fun v hv => h.world v fun hP => hv (hle v hP),
    fun e he => h.edge e fun hP => he (hle _ hP), h.count⟩

/-! ### Pruning some steps of a world -/

/-- Prunes those of some edges that satisfy a condition. -/
def pruneWhere (q : EdgeId → Bool) (x : Tally) (es : List EdgeId) : Tally :=
  es.foldl (fun x e => if q e then pruneEdge x e else x) x

theorem pruneWhere_cons : pruneWhere q x (e :: es) =
    pruneWhere q (if q e then pruneEdge x e else x) es := rfl

theorem edge_pruneEdge_of_ne {e' : EdgeId} (h : e' ≠ e) :
    (pruneEdge x e).1.edge e' = x.1.edge e' := Arena.edge_modifyEdge_of_ne h _

theorem edge_pruneEdge_self (h : e.index < x.1.edges.size) :
    (pruneEdge x e).1.edge e = { x.1.edge e with pruned := true } :=
  Arena.edge_modifyEdge_self h _

theorem sameCosts_pruneEdge : (pruneEdge x e).1.SameCosts x.1 := by
  refine Arena.sameCosts_modifyEdge ?_ ?_
  · intro edge
    rfl
  · intro edge
    rfl

theorem sameCosts_pruneWhere : (pruneWhere q x es).1.SameCosts x.1 := by
  induction es generalizing x with
  | nil => exact .refl x.1
  | cons e es ih =>
    rw [pruneWhere_cons]
    split
    · exact ih.trans sameCosts_pruneEdge
    · exact ih

theorem world_pruneWhere : (pruneWhere q x es).1.world w = x.1.world w := by
  induction es generalizing x with
  | nil => rfl
  | cons e es ih =>
    rw [pruneWhere_cons]
    split
    · exact ih
    · exact ih

theorem edge_pruneWhere_of_not_mem (h : e ∉ es) : (pruneWhere q x es).1.edge e = x.1.edge e := by
  induction es generalizing x with
  | nil => rfl
  | cons d es ih =>
    rw [List.mem_cons, not_or] at h
    rw [pruneWhere_cons, ih h.2]
    split
    · exact edge_pruneEdge_of_ne h.1
    · rfl

/-- Among edges that were not pruned, those that satisfy the condition are pruned afterwards. -/
theorem pruned_pruneWhere (hnodup : es.Nodup) (hin : ∀ e ∈ es, e.index < x.1.edges.size)
    (hlive : ∀ e ∈ es, (x.1.edge e).pruned = false) (he : e ∈ es) :
    ((pruneWhere q x es).1.edge e).pruned = q e := by
  induction es generalizing x with
  | nil => cases he
  | cons d es ih =>
    rw [List.nodup_cons] at hnodup
    rw [pruneWhere_cons]
    rcases List.mem_cons.1 he with rfl | he
    · rw [edge_pruneWhere_of_not_mem hnodup.1]
      split
      · next hq => rw [edge_pruneEdge_self (hin e List.mem_cons_self), hq]
      · next hq => rw [hlive e List.mem_cons_self, Bool.eq_false_iff.2 hq]
    · refine ih hnodup.2 (fun e he => ?_) (fun e he => ?_) he
      · split
        · rw [sameCosts_pruneEdge.edges]
          exact hin e (List.mem_cons_of_mem _ he)
        · exact hin e (List.mem_cons_of_mem _ he)
      · split
        · rw [edge_pruneEdge_of_ne (ne_of_mem_of_not_mem he hnodup.1)]
          exact hlive e (List.mem_cons_of_mem _ he)
        · exact hlive e (List.mem_cons_of_mem _ he)

theorem count_pruneWhere (hnodup : es.Nodup) (hin : ∀ e ∈ es, e.index < x.1.edges.size)
    (hlive : ∀ e ∈ es, (x.1.edge e).pruned = false) (hcount : x.2 = x.1.prunedCount) :
    (pruneWhere q x es).2 = (pruneWhere q x es).1.prunedCount := by
  induction es generalizing x with
  | nil => exact hcount
  | cons d es ih =>
    rw [List.nodup_cons] at hnodup
    rw [pruneWhere_cons]
    split
    · refine ih hnodup.2 (fun e he => ?_) (fun e he => ?_) ?_
      · rw [sameCosts_pruneEdge.edges]
        exact hin e (List.mem_cons_of_mem _ he)
      · rw [edge_pruneEdge_of_ne (ne_of_mem_of_not_mem he hnodup.1)]
        exact hlive e (List.mem_cons_of_mem _ he)
      · refine Eq.trans ?_ (Arena.prunedCount_modifyEdge (hin d List.mem_cons_self)
          (hlive d List.mem_cons_self)).symm
        rw [← hcount]
        rfl
    · exact ih hnodup.2 (fun e he => hin e (List.mem_cons_of_mem _ he))
        (fun e he => hlive e (List.mem_cons_of_mem _ he)) hcount

theorem within_pruneWhere (hc : x.1.Consistent)
    (hlive : ∀ e ∈ (x.1.world w).outgoing, (x.1.edge e).pruned = false) :
    Within (· = w) x (pruneWhere q x (x.1.world w).outgoing) where
  costs := sameCosts_pruneWhere
  world _ _ := world_pruneWhere
  edge e he := edge_pruneWhere_of_not_mem fun hmem => he ((hc.outgoing w e).1 hmem).2
  count := count_pruneWhere (hc.nodup w) (fun e he => ((hc.outgoing w e).1 he).1) hlive

/-! ### Dead worlds -/

theorem foldl_pruneDead_eq (hnodup : es.Nodup)
    (hlive : ∀ e ∈ es, (x.1.edge e).pruned = false) :
    es.foldl (fun x e => if (x.1.edge e).pruned then x else pruneEdge x e) x =
      pruneWhere (fun _ => true) x es := by
  induction es generalizing x with
  | nil => rfl
  | cons d es ih =>
    rw [List.nodup_cons] at hnodup
    rw [List.foldl_cons, pruneWhere_cons, hlive d List.mem_cons_self]
    refine ih hnodup.2 fun e he => ?_
    simp only [Bool.false_eq_true, if_false]
    rw [edge_pruneEdge_of_ne (ne_of_mem_of_not_mem he hnodup.1)]
    exact hlive e (List.mem_cons_of_mem _ he)

/-! ### Live worlds -/

/-- Whether a step of a world costs more than what its owner can be sure of. -/
def isIrrational (sure : SortedMap Agent Cost) (arena : Arena) (e : EdgeId) : Bool :=
  (sure.find? (arena.edge e).agent).any fun c => c.isStrictlyBelow (arena.edge e).cost

theorem isIrrational_iff {sure : SortedMap Agent Cost} :
    isIrrational sure arena e = true ↔ ∃ c, sure.find? (arena.edge e).agent = some c ∧
      c.isStrictlyBelow (arena.edge e).cost = true := by
  simp [isIrrational, Option.any_eq_true]

theorem isIrrational_congr {sure : SortedMap Agent Cost} (h : arena'.SameCosts arena) :
    isIrrational sure arena' e = isIrrational sure arena e := by
  unfold isIrrational
  rw [h.agent, h.edgeCost]

/-- Pruning step by step what is irrational prunes what has been irrational from the beginning. -/
theorem foldlM_pruneIrrational_eq (h : es.foldlM (pruneIrrational w) x = .ok y) :
    y = pruneWhere (isIrrational (x.1.world w).agentCosts x.1) x es := by
  induction es generalizing x with
  | nil =>
    cases h
    rfl
  | cons d es ih =>
    rw [List.foldlM_cons] at h
    obtain ⟨z, hz, h⟩ := Fallible.bind_eq_ok h
    have hstep : z = if isIrrational (x.1.world w).agentCosts x.1 d then pruneEdge x d else x := by
      unfold pruneIrrational at hz
      dsimp only at hz
      unfold isIrrational
      split at hz
      · cases hz
      · next c hc =>
        rw [hc]
        exact (Except.ok.inj hz).symm
    -- no cost changes and nothing at the world, so the test stays what it was
    have hcosts : z.1.SameCosts x.1 := by
      rw [hstep]
      split
      · exact sameCosts_pruneEdge
      · exact .refl x.1
    have hworld : z.1.world w = x.1.world w := by
      rw [hstep]
      split
      · rfl
      · rfl
    have hcond : isIrrational (x.1.world w).agentCosts z.1 =
        isIrrational (x.1.world w).agentCosts x.1 := funext fun e => isIrrational_congr hcosts
    rw [ih h, pruneWhere_cons, hworld, hcond, ← hstep]

/-! ### One world -/

/-- For each agent, what it can be sure of at a world. -/
def sureAt (arena : Arena) (dead : SortedSet WorldId)
    (classes : List (Agent × List (SortedSet WorldId))) (w : WorldId) : SortedMap Agent Cost :=
  (classes.map fun (a, cs) => (a, guaranteed arena dead cs w)).foldl
    (fun m (a, c) => m.insert a c) ∅

theorem guaranteed_congr {dead : SortedSet WorldId} {cs : List (SortedSet WorldId)}
    (h : arena'.SameCosts arena) : guaranteed arena' dead cs w = guaranteed arena dead cs w := by
  unfold guaranteed
  simp only [h.worldCost]

theorem sureAt_congr {dead : SortedSet WorldId}
    {classes : List (Agent × List (SortedSet WorldId))} (h : arena'.SameCosts arena) :
    sureAt arena' dead classes w = sureAt arena dead classes w := by
  unfold sureAt
  congr 1
  exact List.map_congr_left fun ⟨a, cs⟩ _ => congrArg (Prod.mk a) (guaranteed_congr h)

/-- What an agent of a relation can be sure of at a world, by the classes of the agent. -/
theorem find?_sureAt {dead : SortedSet WorldId} {r : Accessibility .world} {a : Agent} :
    (sureAt arena dead (liveClasses r) w).find? a =
      if r.hasAgent a then some (guaranteed arena dead (r.classesOf a .respectCuts) w)
      else none := by
  have hmap : sureAt arena dead (liveClasses r) w =
      (r.agents.toList.map fun a =>
        (a, guaranteed arena dead (r.classesOf a .respectCuts) w)).foldl
          (fun m ac => m.insert ac.1 ac.2) ∅ := by
    unfold sureAt liveClasses
    rw [List.map_map]
    rfl
  rw [hmap, SortedMap.find?_foldl_insert]
  simp only [Accessibility.mem_agents]
  rfl

/-- Writes what the agents can be sure of at a world. -/
def announce (dead : SortedSet WorldId) (classes : List (Agent × List (SortedSet WorldId)))
    (x : Tally) (w : WorldId) : Tally :=
  let costs := classes.map fun (a, cs) => (a, guaranteed x.1 dead cs w)
  (x.1.modifyWorld w fun world =>
    { world with agentCosts := costs.foldl (fun m (a, c) => m.insert a c) world.agentCosts }, x.2)

section

variable {dead : SortedSet WorldId} {classes : List (Agent × List (SortedSet WorldId))}

theorem pruneLive_eq : pruneLive dead classes x w =
    ((announce dead classes x w).1.world w).outgoing.foldlM (pruneIrrational w)
      (announce dead classes x w) := rfl

theorem within_announce : Within (· = w) x (announce dead classes x w) where
  costs := by
    refine Arena.sameCosts_modifyWorld ?_ ?_
    · intro world
      rfl
    · intro world
      rfl
  world _ hv := Arena.world_modifyWorld_of_ne hv _
  edge _ _ := rfl
  count := id

theorem world_announce (hin : w.index < x.1.worlds.size) (hnone : (x.1.world w).agentCosts = ∅) :
    (announce dead classes x w).1.world w =
      { x.1.world w with agentCosts := sureAt x.1 dead classes w } := by
  unfold announce sureAt
  rw [Arena.world_modifyWorld_self hin, hnone]

end

/-- The marks of a world and its steps, when it is known whether it is dead and what agents can be
sure of there. -/
structure Judged (dead : Bool) (sure : SortedMap Agent Cost) (w : WorldId) (arena : Arena) :
    Prop where
  pruned : (arena.world w).pruned = dead
  agentCosts : (arena.world w).agentCosts = if dead then ∅ else sure
  step : ∀ e ∈ (arena.world w).outgoing,
    (arena.edge e).pruned = (dead || isIrrational sure arena e)

theorem Judged.within {dead : Bool} {sure : SortedMap Agent Cost} (h : Judged dead sure w x.1)
    (hc : x.1.Consistent) (hw : ¬P w) (hxy : Within P x y) : Judged dead sure w y.1 := by
  refine ⟨?_, ?_, fun e he => ?_⟩
  · rw [hxy.world w hw]
    exact h.pruned
  · rw [hxy.world w hw]
    exact h.agentCosts
  · rw [hxy.world w hw] at he
    have hparent := ((hc.outgoing w e).1 he).2
    rw [hxy.edge e (hparent ▸ hw), isIrrational_congr hxy.costs]
    exact h.step e he

variable {dead : SortedSet WorldId} {classes : List (Agent × List (SortedSet WorldId))}

/-- A world before its steps are pruned: it is marked when it is dead, and nothing else has been
written at it. -/
structure Ready (dead : SortedSet WorldId) (arena : Arena) (w : WorldId) : Prop where
  inArena : w.index < arena.worlds.size
  pruned : (arena.world w).pruned = dead.contains w
  agentCosts : (arena.world w).agentCosts = ∅
  step : ∀ e ∈ (arena.world w).outgoing, (arena.edge e).pruned = false

/-- At a dead world all steps are pruned. -/
theorem judged_pruneDead (hc : x.1.Consistent) (hready : Ready dead x.1 w)
    (hdead : dead.contains w = true) :
    Within (· = w) x (pruneDead x w) ∧
      Judged true (sureAt x.1 dead classes w) w (pruneDead x w).1 := by
  rw [pruneDead, foldl_pruneDead_eq (hc.nodup w) hready.step]
  refine ⟨within_pruneWhere hc hready.step, ?_, ?_, fun e he => ?_⟩
  · rw [world_pruneWhere, hready.pruned, hdead]
  · rw [world_pruneWhere]
    exact hready.agentCosts
  · rw [world_pruneWhere] at he
    have hin : ∀ e ∈ (x.1.world w).outgoing, e.index < x.1.edges.size :=
      fun e he => ((hc.outgoing w e).1 he).1
    rw [pruned_pruneWhere (hc.nodup w) hin hready.step he, Bool.true_or]

/-- At a live world the irrational steps are pruned. -/
theorem judged_pruneLive (hc : x.1.Consistent) (hready : Ready dead x.1 w)
    (hlive : dead.contains w = false) (h : pruneLive dead classes x w = .ok y) :
    Within (· = w) x y ∧ Judged false (sureAt x.1 dead classes w) w y.1 := by
  have hwithin : Within (· = w) x (announce dead classes x w) := within_announce
  have hworld : (announce dead classes x w).1.world w =
      { x.1.world w with agentCosts := sureAt x.1 dead classes w } :=
    world_announce hready.inArena hready.agentCosts
  have hout : ((announce dead classes x w).1.world w).outgoing = (x.1.world w).outgoing :=
    hwithin.costs.outgoing
  have hsure : isIrrational (sureAt x.1 dead classes w) (announce dead classes x w).1 =
      isIrrational (sureAt x.1 dead classes w) x.1 :=
    funext fun e => isIrrational_congr hwithin.costs
  have hc' := hc.of_sameShape hwithin.costs.symm
  rw [pruneLive_eq, hout] at h
  have hy := foldlM_pruneIrrational_eq h
  rw [hworld, hsure] at hy
  subst hy
  have hstep := within_pruneWhere (q := isIrrational (sureAt x.1 dead classes w) x.1) hc'
    fun e he => hready.step e (hout ▸ he)
  rw [hout] at hstep
  refine ⟨hwithin.trans hstep, ?_, ?_, fun e he => ?_⟩
  · rw [world_pruneWhere, hworld]
    exact hready.pruned.trans hlive
  · rw [world_pruneWhere, hworld]
    rfl
  · rw [world_pruneWhere, hout] at he
    have hin : ∀ e ∈ (x.1.world w).outgoing, e.index < x.1.edges.size :=
      fun e he => ((hc.outgoing w e).1 he).1
    have hmark := pruned_pruneWhere (x := announce dead classes x w)
      (q := isIrrational (sureAt x.1 dead classes w) x.1) (hc.nodup w) hin hready.step he
    rw [hmark, Bool.false_or, isIrrational_congr (hwithin.trans hstep).costs]

/-- Pruning a world writes its marks and nothing else. -/
theorem judged_pruneWorld (hc : x.1.Consistent) (hready : Ready dead x.1 w)
    (h : pruneWorld dead classes x w = .ok y) :
    Within (· = w) x y ∧ Judged (dead.contains w) (sureAt x.1 dead classes w) w y.1 := by
  unfold pruneWorld at h
  split at h
  · next hdead =>
    cases h
    rw [hdead]
    exact judged_pruneDead hc hready hdead
  · next hlive =>
    have hlive' : dead.contains w = false := Bool.eq_false_iff.2 hlive
    rw [hlive']
    exact judged_pruneLive hc hready hlive' h

end Rationality

end EpistemicPlanning
