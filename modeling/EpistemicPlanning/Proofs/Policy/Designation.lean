import EpistemicPlanning.Proofs.Plan.Continuations
import EpistemicPlanning.Proofs.Policy.Execution

/-!
# Moves to designated worlds

A move of a run leads to a live world of the next node. This world is designated when the event of
the move is designated in its action, and not otherwise (`Planner.runs_follow_designation`). So a
run can end at a node without a live designated world, but only by a move whose event is not
designated, and such runs there are (`Mirage.run_ends_nowhere`).
-/
namespace EpistemicPlanning

variable {t : PlanningTask} {g : SearchTree} {n c : NodeId} {w : WorldId} {e : EdgeId} {k i : Nat}
variable {l : List (Action × ActionId)}

/-- A new world of an update is designated when both the world and the event that it was made of
are. -/
theorem Update.designated_iff {arena arena' : Arena} {state next' : State} {action : Action}
    {a : ActionId} (hact : t.action? a = some action)
    (hin : ∀ w ∈ state.possible, arena.contains w = true)
    (h : (apply (t := t) arena state a).value = (.ok (some next'), arena'))
    (hw : w ∈ next'.possible) :
    w.index < arena'.worlds.size ∧ ∃ e, e.index < arena'.edges.size ∧
      (arena'.world w).incoming = some e ∧
      (w ∈ next'.designated ↔
        (arena'.edge e).parent ∈ state.designated ∧ (arena'.edge e).event ∈ action.designated) := by
  obtain ⟨cs, hcs, _, rfl, rfl⟩ := value_apply_eq_some hact h
  have hparent := parent_in_arena hcs hin
  obtain ⟨⟨v, c⟩, hplaced, rfl⟩ := mem_possible_next.1 hw
  obtain ⟨i, hc, hv⟩ := mem_placed.1 hplaced
  have hi : i < cs.length := (List.getElem?_eq_some_iff.1 hc).1
  have hcorrect := correct_candidates hcs c (List.mem_of_getElem? hc)
  refine ⟨?_, ⟨arena.edges.size + i⟩, ?_, ?_, ?_⟩
  · rw [hv, size_worlds_grow]
    exact Nat.add_lt_add_left hi _
  · rw [size_edges_grow]
    exact Nat.add_lt_add_left hi _
  · rw [hv, world_grow_new hparent hc]
  · rw [edge_grow_new hc, ← hcorrect.designated, mem_designated_next]
    constructor
    · rintro ⟨q, hq, hdes, hqv⟩
      rwa [placed_unique hq hplaced hqv] at hdes
    · intro hdes
      exact ⟨_, hplaced, hdes, rfl⟩

namespace SearchTree

/-- A world of a child is designated when its event is, provided that what it was made of is. -/
theorem Stems.designated_iff (h : g.Stems t n c) (hw : w ∈ (g.node c).state.possible) :
    ∃ e action, (g.arena.world w).incoming = some e ∧
      (g.node c).action.bind t.action? = some action ∧
      ((g.arena.edge e).parent ∈ (g.node n).state.designated →
        (w ∈ (g.node c).state.designated ↔ action.isDesignated (g.arena.edge e).event = true)) := by
  obtain ⟨action, a, before, after, hact, ha, hin, hperform, _, hext⟩ := h
  obtain ⟨shifted, hshift, _, hupdate⟩ := Update.perform_eq_some.1 hperform
  obtain ⟨hpossible, _, hdesignated⟩ := PointedModel.perspective_eq_ok hshift
  have hin' : ∀ w ∈ shifted.possible, before.contains w = true := by
    rw [hpossible]
    exact fun w hw => Arena.contains_iff.2 (hin w hw)
  obtain ⟨hwin, e, he, hincoming, hiff⟩ := Update.designated_iff hact hin' hupdate hw
  refine ⟨e, action, ?_, ?_, fun hparent => ?_⟩
  · rw [hext.incoming w hwin, hincoming]
  · rw [ha]
    exact hact
  · rw [hext.parent he] at hparent
    -- the owner of the action holds the designated worlds possible, and others besides
    have hseen : (after.edge e).parent ∈ shifted.designated :=
      (hdesignated _).2 ⟨_, hparent, .refl⟩
    change w ∈ (g.node c).state.designated ↔ _ at hiff
    rw [hext.event he, hiff, Action.isDesignated, PointedModel.isDesignated, SortedSet.contains_iff]
    exact and_iff_right hseen

/-- A live move leads to a live world, which is designated when its event is. -/
structure LeadsOn (t : PlanningTask) (g : SearchTree) (m : Move) : Prop where
  target : (g.arena.edge m.edge).child ∈ (g.node m.target).state.possible
  live : (g.arena.world (g.arena.edge m.edge).child).pruned = false
  designated : ∃ action, t.action? (g.arena.edge m.edge).action = some action ∧
    ((g.arena.edge m.edge).child ∈ (g.node m.target).state.designated ↔
      action.isDesignated (g.arena.edge m.edge).event = true)

theorem Moves.leadsOn {m : Move} (h : g.Moves t n m) (hplan : g.IsPlan t)
    (hinv : g.Unfolded t k l) (hn : n.index < g.size) : g.LeadsOn t m := by
  obtain ⟨w, hw, _, hout⟩ := h.source
  have hwf := hplan.wellFormed
  obtain ⟨hin, hparent⟩ := (hwf.consistent.outgoing w m.edge).1 hout
  have hincoming := (hwf.consistent.incoming (g.arena.edge m.edge).child m.edge).2 ⟨hin, rfl⟩
  have hmem := mem_children_of_child? hn h.child
  obtain ⟨_, _, hexp⟩ := hinv.exists_expandedBy hn hmem
  obtain ⟨e, action, he, hact, hiff⟩ :=
    (hexp.child m.target hmem).designated_iff h.joins.target
  obtain rfl : e = m.edge := Option.some.inj (he.symm.trans hincoming)
  rw [h.joins.action, Option.bind_some] at hact
  exact ⟨h.joins.target, hplan.live_child hout h.live, action, hact, hiff (hparent.symm ▸ hw)⟩

/-- At the root of a plan some designated world is live. -/
theorem IsPlan.live_root (h : g.IsPlan t) :
    ∃ w ∈ (g.node root).state.designated, (g.arena.world w).pruned = false := by
  have hwf := h.wellFormed
  obtain ⟨w, hw⟩ := h.designated root hwf.nonempty
  refine ⟨w, hw, ?_⟩
  rw [Bool.eq_false_iff]
  intro hpruned
  obtain ⟨e, he, _⟩ := h.pruned_world_iff.1 hpruned
  obtain ⟨p, hlt, _⟩ := hwf.parent_of_incoming hwf.nonempty
    ((hwf.state root hwf.nonempty).designated_possible w hw) he
  exact Nat.not_lt_zero _ hlt

end SearchTree

namespace Policy

open SearchTree

/-- What the moves of a run have to do with designated worlds. -/
structure FollowsDesignation (t : PlanningTask) (g : SearchTree) (path : List Move)
    (report : ExecutionReport) : Prop where
  leadsOn : ∀ m ∈ path, g.LeadsOn t m
  /-- Each node that a run passes has a live designated world. -/
  passed : ∀ i < path.length, ∃ w ∈ (g.node (lastNode root (path.take i))).state.designated,
    (g.arena.world w).pruned = false
  /-- So has the last one, unless the event of the last move is not designated. -/
  last : report.finalWorlds = [] → ∃ m action, path.getLast? = some m ∧
    t.action? (g.arena.edge m.edge).action = some action ∧
      action.isDesignated (g.arena.edge m.edge).event = false

theorem lastNode_of_getLast? {path : List Move} {m : Move} (h : path.getLast? = some m) :
    lastNode n path = m.target := by
  induction path generalizing n with
  | nil => cases h
  | cons x path ih =>
    cases path with
    | nil =>
      cases h
      rfl
    | cons y path =>
      rw [List.getLast?_cons_cons] at h
      change lastNode x.target (y :: path) = m.target
      exact ih h

theorem RunsDown.followsDesignation {maxSteps : Nat} {path : List Move} {report : ExecutionReport}
    (h : RunsDown t g maxSteps path report) (hplan : g.IsPlan t) (hinv : g.Unfolded t k l)
    (hin : ∀ i ≤ path.length, (lastNode root (path.take i)).index < g.size) :
    FollowsDesignation t g path report := by
  have hleads : ∀ m ∈ path, g.LeadsOn t m := by
    intro m hm
    obtain ⟨i, hi⟩ := List.mem_iff_getElem?.1 hm
    have hle := Nat.le_of_lt (List.getElem?_eq_some_iff.1 hi).1
    exact (h.moves i m hi).1.leadsOn hplan hinv (hin i hle)
  refine ⟨hleads, fun i hi => ?_, fun hnone => ?_⟩
  · obtain ⟨w, hw, hlive, _⟩ := (h.moves i _ (List.getElem?_eq_getElem hi)).1.source
    exact ⟨w, hw, hlive⟩
  · have hdead : ∀ w ∈ (g.node (lastNode root path)).state.designated,
        (g.arena.world w).pruned ≠ false := by
      intro w hw hlive
      have hmem : w ∈ report.finalWorlds := by
        rw [h.finalWorlds]
        exact List.mem_filter.2 ⟨SortedSet.mem_def.1 hw, by rw [hlive]; rfl⟩
      rw [hnone] at hmem
      cases hmem
    cases hlast : path.getLast? with
    | none =>
      -- a run without moves ends at the root
      rw [List.getLast?_eq_none_iff.1 hlast] at hdead
      obtain ⟨w, hw, hlive⟩ := hplan.live_root
      exact absurd hlive (hdead w hw)
    | some m =>
      obtain ⟨htarget, hlive, action, hact, hiff⟩ := hleads m (List.mem_of_getLast? hlast)
      refine ⟨m, action, rfl, hact, ?_⟩
      rw [Bool.eq_false_iff]
      intro hdes
      rw [lastNode_of_getLast? hlast] at hdead
      exact absurd hlive (hdead _ (hiff.2 hdes))

end Policy

/-- In every run of a plan for an accepted task, moves lead to live worlds of the next node, which
are designated as far as the events of the moves are. -/
theorem Planner.runs_follow_designation {p : Planner} (hacc : t.Accepted)
    (hfresh : t.arena.Fresh) (h : p.plan t = .ok g) {σ : Type} {pick : Policy.Chooser σ}
    {maxSteps : Nat} {s : σ} {path : List Move}
    (hpath : Policy.Follows ⟨g, t⟩ pick maxSteps SearchTree.root s path) :
    ∃ report, (⟨g, t⟩ : Policy).runWith pick maxSteps s = .ok report ∧
      Policy.FollowsDesignation t g path report := by
  have hplan := p.isPlan hacc hfresh h
  obtain ⟨k, hinv⟩ := plan_unfolded hacc h
  obtain ⟨report, hrun, hdown⟩ := Policy.runWith_of_follows hplan hinv hpath
  refine ⟨report, hrun, hdown.followsDesignation hplan hinv fun i hi => ?_⟩
  exact (hpath.depth_at hinv hplan.wellFormed hplan.wellFormed.nonempty i hi).1

/-- In the plan for the lever all events are designated, so no run ends without a live designated
world. -/
theorem Lever.runs_follow : ∃ path report,
    Policy.Follows ⟨Lever.plan, Lever.task⟩ Choice.pick 1 SearchTree.root (.ofSeed 0) path ∧
      (⟨Lever.plan, Lever.task⟩ : Policy).runSeed 1 0 = .ok report ∧
        Policy.FollowsDesignation Lever.task Lever.plan path report ∧
          report.finalWorlds ≠ [] := by
  have hroot : Lever.plan.unprunedEdges SearchTree.root = [⟨1⟩] := by decide +kernel
  have hchild : Lever.plan.child? SearchTree.root (Lever.plan.arena.edge ⟨1⟩).action =
      some ⟨1⟩ := by decide +kernel
  have hpath : Policy.Follows ⟨Lever.plan, Lever.task⟩ Choice.pick 1 SearchTree.root (.ofSeed 0)
      [⟨⟨1⟩, ⟨1⟩⟩] := .forced hroot hchild .spent
  obtain ⟨report, hrun, hfollows⟩ :=
    Planner.runs_follow_designation Lever.accepted Lever.fresh Lever.plan_eq hpath
  refine ⟨_, report, hpath, hrun, hfollows, fun hnone => ?_⟩
  obtain ⟨m, action, hm, hact, hdes⟩ := hfollows.last hnone
  obtain rfl : ⟨⟨1⟩, ⟨1⟩⟩ = m := Option.some.inj hm
  have hpull : (Lever.plan.arena.edge ⟨1⟩).action = ⟨0⟩ := by decide +kernel
  rw [hpull] at hact
  obtain rfl : Lever.pullLeft = action := Option.some.inj hact
  revert hdes
  decide +kernel

/-! ### A wish

An agent wishes for something, and nothing happens. That the wish comes true is an event of the
action too, but it is not designated; it costs less, and the agent follows it. -/

namespace Mirage

def dreamer : Agent := ⟨"dreamer"⟩

def predicates : PredicateTable where
  atoms := [⟨"happy", []⟩]
  nodup := by decide

def happy : Predicate := ⟨⟨0⟩, ⟨"happy", []⟩⟩

def arena : Arena := Arena.empty.addWorld (.ofTrue [])

def relation : Accessibility .world := Accessibility.discrete [dreamer] [⟨0⟩]

def initial : State :=
  Fallible.get (State.ofParts [⟨0⟩] (SortedSet.singleton ⟨0⟩) relation) (by decide)

theorem initial_eq : State.ofParts [⟨0⟩] (SortedSet.singleton ⟨0⟩) relation = .ok initial :=
  Fallible.eq_ok_get _ _

/-- Nothing happens, or the wish comes true, but it is designated that nothing happens. -/
def wish : Action :=
  Fallible.get (Action.ofSteps "wish" dreamer [.event ⟨"nothing", .fixed ⟨.top, ∅⟩⟩,
    .event ⟨"fulfilment", .fixed ⟨.top, .ofList [(happy, true)]⟩⟩, .designate ⟨0⟩]) (by decide)

def task : PlanningTask := ⟨predicates, arena, initial, [wish], .atom happy⟩

theorem accepted : task.Accepted where
  wellFormed := State.wellFormed_of_ofParts (.discrete _ _) initial_eq
  parts := rfl

theorem fresh : task.arena.Fresh := by
  refine ⟨rfl, fun w => ?_, fun w => ?_⟩
  all_goals
    obtain ⟨i⟩ := w
    match i with
    | 0 => rfl
    | _ + 1 => rfl

def planner : Planner := ⟨{}, rfl⟩

def plan : SearchTree := Fallible.get (planner.plan task) (by decide +kernel)

theorem plan_eq : planner.plan task = .ok plan := Fallible.eq_ok_get _ _

/-- With seed 0 the run follows the edge of the fulfilment, which leads to a world that is
not designated, and ends at a node without a live designated world. -/
theorem run_ends_nowhere : task.Accepted ∧ task.arena.Fresh ∧ planner.plan task = .ok plan ∧
    Policy.ofTask plan task = .ok ⟨plan, task⟩ ∧
      (∃ c, Policy.Follows ⟨plan, task⟩ Choice.pick 1024 SearchTree.root (.ofSeed 0)
        [⟨⟨1⟩, c⟩] ∧ (plan.arena.edge ⟨1⟩).child ∉ (plan.node c).state.designated) ∧
      (⟨plan, task⟩ : Policy).runSeed 1024 0 = .ok ⟨["wish"], false, 1, []⟩ := by
  have hroot : plan.unprunedEdges SearchTree.root = [⟨1⟩] := by decide +kernel
  have hchild : plan.child? SearchTree.root (plan.arena.edge ⟨1⟩).action = some ⟨1⟩ := by
    decide +kernel
  have hnone : plan.unprunedEdges ⟨1⟩ = [] := by decide +kernel
  have hpath : Policy.Follows ⟨plan, task⟩ Choice.pick 1024 SearchTree.root (.ofSeed 0)
      [⟨⟨1⟩, ⟨1⟩⟩] := .forced hroot hchild (.stuck hnone)
  refine ⟨accepted, fresh, plan_eq, Planner.ofTask_plan accepted plan_eq,
    ⟨_, hpath, by decide +kernel⟩, ?_⟩
  obtain ⟨s, hwalk⟩ := hpath.walk_eq
  have hreached : (⟨plan, task⟩ : Policy).goalReached ⟨1⟩ = .ok false := by decide +kernel
  unfold Policy.runSeed Policy.runWith
  rw [hwalk]
  change (⟨plan, task⟩ : Policy).goalReached ⟨1⟩ >>= _ = _
  rw [hreached]
  decide +kernel

end Mirage

end EpistemicPlanning
