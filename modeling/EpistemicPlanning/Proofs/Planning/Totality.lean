import EpistemicPlanning.Proofs.Planning.Marks
import EpistemicPlanning.Proofs.Planning.Mishaps
import EpistemicPlanning.Proofs.Update.Totality

/-!
# Planning without lookups that fail

The tree of a closed task can be unfolded to every depth, and its costs can be computed
(`PlanningTask.Closed.succeeds_fullTree`). Pruning succeeds as well, since the owner of each step
has a relation. So the only way in which a round of the planner can fail is that the tree has become
too large (`Run.Broken.crowded_of_closed`).
-/
namespace EpistemicPlanning

open Fallible SearchTree

variable {t : PlanningTask} {c : PlannerConfig} {g g' : SearchTree} {n : NodeId} {w : WorldId}
variable {p : Action × ActionId} {action : Action} {a : ActionId} {d limit : Nat} {r : Run}
variable {e : PlanError}

/-! ### Costs -/

namespace PlanningTask.Closed

variable (hclosed : t.Closed)

include hclosed

theorem succeeds_standing {arena : Arena} {state : State}
    (hagents : state.agents = t.initial.agents) :
    Succeeds (Updating.standing (t := t) arena state w).value := by
  unfold Updating.standing
  rw [Updating.value_bind, Updating.value_ofExcept]
  refine (hclosed.succeeds_goal hagents).bind fun b _ => ?_
  cases b with
  | true => exact ⟨.goal, rfl⟩
  | false =>
    simp only [Bool.false_eq_true, if_false]
    rw [Updating.value_bind]
    refine (hclosed.succeeds_hasApplicableEvent hagents).bind fun b _ => ?_
    cases b with
    | true => exact ⟨.active, rfl⟩
    | false => exact ⟨.stuck, rfl⟩

theorem succeeds_withCosts (hs : g.Sound t) : Succeeds (g.withCosts t limit) := by
  have hstandings : Succeeds
      (Updating.standings (t := t) g.arena (g.nodeIds.reverse.map g.node)).value := by
    unfold Updating.standings
    rw [Updating.value_mapM]
    refine succeeds_mapM fun x hx => ?_
    obtain ⟨n, hn, rfl⟩ := List.mem_map.1 hx
    rw [Updating.value_mapM]
    have hin := mem_nodeIds.1 (List.mem_reverse.1 hn)
    exact succeeds_mapM fun w _ => hclosed.succeeds_standing (hs.agents n hin)
  exact hstandings.map _

/-! ### Unfolding -/

variable (hacc : t.Accepted)

include hacc

theorem succeeds_sprout (hs : g.Sound t) (hn : n.index < g.size)
    (hact : t.action? p.2 = some p.1) : Succeeds (g.sprout t n p) :=
  (hclosed.succeeds_perform (hs.agents n hn) hacc hact).map _

theorem succeeds_expanded (hs : g.Sound t) (hn : n.index < g.size) :
    Succeeds (g.expanded t n) := by
  refine succeeds_foldlM (fun f => f.Sound t ∧ n.index < f.size) ⟨hs, hn⟩ fun p hp f hf => ?_
  have hact := PlanningTask.mem_numbered.1 hp
  obtain ⟨f', hsprout⟩ := hclosed.succeeds_sprout hacc hf.1 hf.2 hact
  exact ⟨f', hsprout, hf.1.sprout hf.2 hact hsprout,
    Nat.lt_of_lt_of_le hf.2 (size_le_of_sprout hsprout)⟩

theorem succeeds_unfoldTo (d : Nat) : Succeeds (t.unfoldTo d) := by
  induction d with
  | zero => exact ⟨ofTask t, rfl⟩
  | succ d ih =>
    obtain ⟨g, hg⟩ := ih
    obtain ⟨k, hcut⟩ := cutAt_of_unfoldTo hacc hg
    rw [unfoldTo, hg]
    refine succeeds_foldlM (fun f => f.Sound t ∧ g.size ≤ f.size)
      ⟨hcut.unfolding.sound hacc, Nat.le_refl _⟩ fun n hn f hf => ?_
    have hlevel := mem_nodeIds.1 (List.mem_filter.1 hn).1
    have hin := Nat.lt_of_lt_of_le hlevel hf.2
    obtain ⟨f', hexp⟩ := hclosed.succeeds_expanded hacc hf.1 hin
    exact ⟨f', hexp, hf.1.expanded hin hexp,
      Nat.le_trans hf.2 (extends_of_expanded hf.1 hin hexp).1.size⟩

end PlanningTask.Closed

/-! ### Pruning -/

/-- The owners of the steps from the worlds of a node have relations in its state. -/
def SearchTree.Owned (g : SearchTree) : Prop :=
  ∀ n, n.index < g.size → ∀ w ∈ (g.node n).state.possible, w.index < g.arena.worlds.size ∧
    ∀ e ∈ (g.arena.world w).outgoing,
      (g.node n).state.relation.hasAgent (g.arena.edge e).agent = true

theorem SearchTree.Owned.of_sameShape (h : g.Owned) (s : g.SameShape g') : g'.Owned := by
  intro n hn w hw
  obtain ⟨hin, hsteps⟩ := h n (s.size.symm ▸ hn) w (s.possible ▸ hw)
  refine ⟨s.arena.worlds ▸ hin, fun e he => ?_⟩
  have hagent := hsteps e (s.arena.outgoing ▸ he)
  unfold Accessibility.hasAgent at *
  rw [← s.links, ← s.arena.agent]
  exact hagent

/-- Only owners of actions take steps. -/
theorem SearchTree.WellFormed.owned (hacc : t.Accepted) (h : g.WellFormed t) (hs : g.Sound t) :
    g.Owned := by
  intro n hn w hw
  refine ⟨h.inArena n hn w hw, fun e he => ?_⟩
  obtain ⟨m, _, _, hjoin⟩ := h.joins_of_outgoing hn hw he
  obtain ⟨action, hact, howner⟩ := hjoin.owner
  rw [howner, PointedModel.hasAgent_of_agents (hs.agents n hn)]
  exact hacc.hasOwner hact

namespace Rationality

variable {x : Tally} {es : List EdgeId} {dead : SortedSet WorldId} {ws : List WorldId}
variable {classes : List (Agent × List (SortedSet WorldId))} {rel : Accessibility .world}

/-- Steps can be judged where it is known what their owners can be sure of. -/
theorem succeeds_pruneIrrationals
    (h : ∀ e ∈ es, ∃ c, (x.1.world w).agentCosts.find? (x.1.edge e).agent = some c) :
    Succeeds (es.foldlM (pruneIrrational w) x) := by
  refine succeeds_foldlM (fun y : Tally => y.1.world w = x.1.world w ∧ y.1.SameCosts x.1)
    ⟨rfl, .refl x.1⟩ fun e he y ⟨hworld, hcosts⟩ => ?_
  obtain ⟨c, hc⟩ := h e he
  have hjudge : pruneIrrational w y e =
      .ok (if c.isStrictlyBelow (y.1.edge e).cost then pruneEdge y e else y) := by
    unfold pruneIrrational
    dsimp only
    rw [hworld, hcosts.agent, hc]
  refine ⟨_, hjudge, ?_⟩
  split
  · exact ⟨hworld, sameCosts_pruneEdge.trans hcosts⟩
  · exact ⟨hworld, hcosts⟩

/-- It is announced at a world what each agent of the relation can be sure of. -/
theorem find?_announce {ag : Agent} (hin : w.index < x.1.worlds.size)
    (hagent : rel.hasAgent ag = true) :
    ((announce dead (liveClasses rel) x w).1.world w).agentCosts.find? ag =
      some (guaranteed x.1 dead (rel.classesOf ag .respectCuts) w) := by
  have hcosts : ((announce dead (liveClasses rel) x w).1.world w).agentCosts =
      (rel.agents.toList.map fun ag =>
        (ag, guaranteed x.1 dead (rel.classesOf ag .respectCuts) w)).foldl
          (fun m ac => m.insert ac.1 ac.2) (x.1.world w).agentCosts := by
    unfold announce liveClasses
    rw [Arena.world_modifyWorld_self hin, List.map_map]
    rfl
  rw [hcosts, SortedMap.find?_foldl_insert, if_pos (Accessibility.mem_agents.2 hagent)]

theorem succeeds_pruneWorld (hin : w.index < x.1.worlds.size)
    (hown : ∀ e ∈ (x.1.world w).outgoing, rel.hasAgent (x.1.edge e).agent = true) :
    Succeeds (pruneWorld dead (liveClasses rel) x w) := by
  unfold pruneWorld
  split
  · exact ⟨_, rfl⟩
  · have hsame : (announce dead (liveClasses rel) x w).1.SameCosts x.1 :=
      (@within_announce w x dead (liveClasses rel)).costs
    rw [pruneLive_eq, hsame.outgoing]
    refine succeeds_pruneIrrationals fun e he => ?_
    rw [hsame.agent]
    exact ⟨_, find?_announce hin (hown e he)⟩

theorem succeeds_pruneWorlds (h : ∀ w ∈ ws, w.index < x.1.worlds.size ∧
      ∀ e ∈ (x.1.world w).outgoing, rel.hasAgent (x.1.edge e).agent = true) :
    Succeeds (ws.foldlM (pruneWorld dead (liveClasses rel)) x) := by
  refine succeeds_foldlM (fun y : Tally => y.1.SameCosts x.1) (.refl x.1) fun w hw y hy => ?_
  obtain ⟨hin, hown⟩ := h w hw
  obtain ⟨z, hz⟩ : Succeeds (pruneWorld dead (liveClasses rel) y w) := by
    refine succeeds_pruneWorld (hy.worlds.symm ▸ hin) fun e he => ?_
    rw [hy.outgoing] at he
    rw [hy.agent]
    exact hown e he
  exact ⟨z, hz, (sameCosts_of_pruneWorld hz).trans hy⟩

theorem succeeds_pruneNode {k : Nat} (h : g.Owned) (hn : n.index < g.size) :
    Succeeds (pruneNode (g, k) n) := by
  unfold pruneNode
  dsimp only
  refine Succeeds.bind (succeeds_pruneWorlds fun w hw => ?_) fun y _ => ⟨_, rfl⟩
  have hmarked : (markDead g.arena (deadWorlds g.arena (g.node n)).toList).SameCosts g.arena :=
    sameCosts_markDead
  obtain ⟨hin, hown⟩ := h n hn w hw
  refine ⟨?_, fun e he => ?_⟩
  · exact hmarked.worlds.symm ▸ hin
  · have he' : e ∈ (g.arena.world w).outgoing := hmarked.outgoing ▸ he
    have hagent := hown e he'
    rw [← hmarked.agent] at hagent
    exact hagent

theorem succeeds_prune (h : g.Owned) : Succeeds (prune g) := by
  have hreset : ({ g with arena := g.arena.resetPruning } : SearchTree).SameShape g :=
    sameShape_arena Arena.sameShape_resetPruning
  refine succeeds_foldlM (fun y : SearchTree × Nat => y.1.SameShape g) hreset
    fun n hn y hy => ?_
  have hin : n.index < y.1.size := hy.size.symm ▸ mem_nodeIds.1 hn
  obtain ⟨z, hz⟩ := succeeds_pruneNode (k := y.2) (h.of_sameShape hy.symm) hin
  exact ⟨z, hz, (sameCosts_of_pruneNode hz).toSameShape.trans hy⟩

end Rationality

/-! ### Rounds -/

/-- For a closed task, an action fails only where there is no room for another node. -/
theorem Run.Mishap.crowded_of_closed (hacc : t.Accepted) (hclosed : t.Closed)
    (hs : r.tree.Sound t) (hn : n.index < r.tree.size) (hact : t.action? a = some action)
    (h : r.Mishap t c n action a e) : ∃ m k, e = .planning (.tooManyNodes m k) := by
  have hagents := hs.agents n hn
  have hseen : ∀ {shifted : State}, (r.tree.node n).state.perspective action.owner = .ok shifted →
      shifted.agents = t.initial.agents := fun hshift =>
    (PointedModel.agents_of_perspective hshift).trans hagents
  cases h with
  | perspective hshift =>
    have howner := hacc.hasOwner hact
    rw [← PointedModel.hasAgent_of_agents hagents] at howner
    exact absurd hshift ((PointedModel.succeeds_perspective howner).ne_error _)
  | applicability hshift happ =>
    exact absurd happ ((hclosed.succeeds_isApplicable (hseen hshift) hact).ne_error _)
  | crowded _ => exact ⟨_, _, rfl⟩
  | update hshift hupdate =>
    exact absurd hupdate ((hclosed.succeeds_apply (hseen hshift) hact).ne_error _)
  | @goal shifted next arena m hshift hupdate hgoal =>
    obtain ⟨cs, _, _, rfl, _⟩ := Update.value_apply_eq_some hact hupdate
    have hnext : (Update.next r.tree.arena shifted action cs).agents = t.initial.agents :=
      Update.agents_next.trans (hseen hshift)
    have htold : Succeeds ((Update.next r.tree.arena shifted action cs).worldsSatisfying arena
        t.goal) := by
      refine PointedModel.succeeds_worldsSatisfying fun b hb => ?_
      rw [PointedModel.hasAgent_of_agents hnext]
      exact hclosed.goal b hb
    exact absurd hgoal (htold.ne_error _)

theorem Run.Broken.crowded_of_closed (hacc : t.Accepted) (hclosed : t.Closed)
    (h : Run.Broken t c e) : ∃ m k, e = .planning (.tooManyNodes m k) := by
  cases h with
  | growing hs hn hact hmishap => exact hmishap.crowded_of_closed hacc hclosed hs hn hact
  | costing hs hcosts => exact absurd hcosts ((hclosed.succeeds_withCosts hs).ne_error _)

end EpistemicPlanning
