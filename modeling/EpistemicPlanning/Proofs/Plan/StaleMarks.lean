import EpistemicPlanning.Proofs.Lever
import EpistemicPlanning.Proofs.Planning.Coupled

/-!
# Stale marks

A task may bring marks along that an earlier search has left: costs, pruned worlds and edges in its
arena, and cuts in its initial state. None of them shows in a plan
(`Planner.run_ignores_stale_marks`), unless a dynamic event reads them in the task that it is given
(`Tidy.pruned_run`).
-/
namespace EpistemicPlanning

open SearchTree Planning

variable {t t' : PlanningTask} {a b : Arena}

theorem Arena.SameShape.unmarked_eq (h : a.SameShape b) : a.unmarked = b.unmarked := by
  have hworlds : a.worlds.map World.unmarked = b.worlds.map World.unmarked := by
    refine Array.ext (by simp [h.worlds]) fun i hi hi' => ?_
    rw [Array.size_map] at hi hi'
    have hworld := h.world ⟨i⟩
    simp only [Arena.world, Array.getElem?_eq_getElem hi, Array.getElem?_eq_getElem hi',
      Option.getD_some] at hworld
    rw [Array.getElem_map, Array.getElem_map, hworld]
  have hedges : a.edges.map ProvenanceEdge.unmarked = b.edges.map ProvenanceEdge.unmarked := by
    refine Array.ext (by simp [h.edges]) fun i hi hi' => ?_
    rw [Array.size_map] at hi hi'
    have hedge := h.edge ⟨i⟩
    simp only [Arena.edge, Array.getElem?_eq_getElem hi, Array.getElem?_eq_getElem hi',
      Option.getD_some] at hedge
    rw [Array.getElem_map, Array.getElem_map, hedge]
  unfold Arena.unmarked
  rw [hworlds, hedges]

/-- Two tasks look the same to an event apart from the marks of worlds and edges in their arenas and
the cuts in their initial states. -/
structure TaskView.SameButMarks (s s' : TaskView) : Prop where
  predicates : s.predicates = s'.predicates
  arena : s.arena.SameShape s'.arena
  initial : s.initial.uncut = s'.initial.uncut
  actions : s.actions = s'.actions
  goal : s.goal = s'.goal

/-- Two tasks are equal apart from the marks of worlds and edges in their arenas and the cuts in
their initial states. -/
structure PlanningTask.SameButMarks (t t' : PlanningTask) : Prop where
  predicates : t.predicates = t'.predicates
  arena : t.arena.SameShape t'.arena
  initial : t.initial.uncut = t'.initial.uncut
  actions : t.actions = t'.actions
  goal : t.goal = t'.goal

/-- The outcome of an event is the same whatever marks a task brings along. -/
def EventRule.IgnoresMarks (rule : EventRule) : Prop :=
  ∀ v s s', TaskView.SameButMarks s s' → rule.resolve v s = rule.resolve v s'

theorem EventRule.ignoresMarks_of_fixed {rule : EventRule} (h : rule.isDynamic = false) :
    rule.IgnoresMarks := by
  intro v s s' _
  cases rule with
  | fixed outcome => rfl
  | perWorld resolve => cases h

/-- No event of the task reads marks. -/
def PlanningTask.IgnoresMarks (t : PlanningTask) : Prop :=
  ∀ action ∈ t.actions, ∀ event ∈ action.events, event.rule.IgnoresMarks

namespace PlanningTask.SameButMarks

variable (h : t.SameButMarks t')

include h

theorem view : t.view.SameButMarks t'.view :=
  ⟨h.predicates, h.arena, h.initial, congrArg (List.map Action.view) h.actions, h.goal⟩

theorem outcome_eq (hreads : t.IgnoresMarks) : t.outcome = t'.outcome := by
  funext q
  have hevent : t.event? q.action q.event = t'.event? q.action q.event := by
    unfold event? action?
    rw [h.actions]
  unfold outcome
  rw [← hevent]
  cases hfound : t.event? q.action q.event with
  | none => rfl
  | some event =>
    obtain ⟨action, hact, hmem⟩ := Option.bind_eq_some_iff.1 hfound
    exact hreads action (mem_of_action? hact) event (List.mem_of_getElem? hmem) _ _ _ h.view

theorem alike (hreads : t.IgnoresMarks) : t.Alike t' :=
  ⟨h.actions, h.outcome_eq hreads, h.goal⟩

theorem equalUnmarked : EqualUnmarked t.arena t.initial t'.arena t'.initial :=
  ⟨h.arena.unmarked_eq, h.initial⟩

theorem description_eq : t.description = t'.description := by
  have htext : t.predicateText = t'.predicateText := by
    funext id
    unfold predicateText
    rw [h.predicates]
  have hworlds : t.worldsDescription = t'.worldsDescription := by
    unfold worldsDescription
    rw [h.equalUnmarked.possible, htext]
    simp only [h.arena.valuation]
  have hrelation : t.initial.relation.description = t'.initial.relation.description := by
    unfold Accessibility.description
    rw [h.equalUnmarked.links]
  unfold description
  rw [hworlds, hrelation, h.equalUnmarked.designated, h.actions, h.goal]

theorem fingerprint_eq : t.fingerprint = t'.fingerprint := by
  unfold fingerprint
  rw [h.description_eq]

theorem bare_ofTask : (ofTask t).bare = (ofTask t').bare := by
  have hnode : (⟨t.initial, none, 0, none, [], .undefined⟩ : Node).unmarked =
      (⟨t'.initial, none, 0, none, [], .undefined⟩ : Node).unmarked :=
    congrArg (fun s : State => (⟨s, none, 0, none, [], .undefined⟩ : Node)) h.initial
  unfold ofTask SearchTree.bare
  dsimp only
  rw [List.map_toArray, List.map_toArray, List.map_singleton, List.map_singleton, hnode,
    h.arena.unmarked_eq, h.fingerprint_eq]

end PlanningTask.SameButMarks

/-- What a search ends with that has worked out so many outcomes of dynamic events. -/
def PlanOutcome.ofSearch (result : Except PlanError SearchTree) (resolved : Nat) : PlanOutcome where
  result := result.map fun tree =>
    { tree with stats := { tree.stats with resolvedEvents := resolved } }
  resolved

namespace Planner

theorem run_eq_ofSearch (p : Planner) : p.run t =
    .ofSearch (trace (Planning.tree (t := t) p.config) (.initial t p.config) ∅).1.1
      (trace (Planning.tree (t := t) p.config) (.initial t p.config) ∅).2.entries.length := rfl

/-- Tasks that are equal apart from marks, and whose events do not read them, have the same plan, with
all marks that the search writes, or fail alike; and as many outcomes of dynamic events are worked
out. -/
theorem run_ignores_stale_marks (p : Planner) (h : t.SameButMarks t') (hreads : t.IgnoresMarks) :
    p.run t = p.run t' := by
  have hstart : Run.EqualApart SearchTree.bare (.initial t p.config) (.initial t' p.config) :=
    ⟨h.bare_ofTask, rfl, rfl, rfl, rfl⟩
  have hend := coupled_tree (c := p.config) (h.alike hreads) hstart ∅ ∅ rfl
  rw [run_eq_ofSearch, run_eq_ofSearch, hend.result, hend.memo]

end Planner

namespace Lever

/-- The task after its arena has been used: a world has been made of the leftmost one. -/
def used : PlanningTask :=
  { task with arena := arena.addChild (world 0) ⟨0⟩ ⟨0⟩ left (.ofTrue [position 0]) }

/-- An earlier search has left its marks. -/
def stale : PlanningTask :=
  { used with
    arena := ((used.arena.modifyWorld (world 1) fun w =>
      { w with cost := .settled 7, agentCosts := w.agentCosts.insert left .infinity }).modifyWorld
        (world 3) fun w => { w with cost := .settled 0, pruned := true }).modifyEdge ⟨0⟩ fun e =>
          { e with cost := .infinity, pruned := true }
    initial := { initial with
      relation := initial.relation.cutTouching (SortedSet.singleton (world 1)) } }

theorem stale_sameButMarks : stale.SameButMarks used := by
  refine ⟨rfl, ?_, rfl, rfl, rfl⟩
  refine .trans (Arena.sameShape_modifyEdge ?_)
    (.trans (Arena.sameShape_modifyWorld ?_) (Arena.sameShape_modifyWorld ?_))
  all_goals
    intro _
    rfl

theorem stale_ignoresMarks : stale.IgnoresMarks := by
  have hfixed : (stale.actions.flatMap Action.events).all (fun event => !event.rule.isDynamic) =
      true := by decide +kernel
  intro action hact event hev
  have hevent := List.all_eq_true.1 hfixed event (List.mem_flatMap.2 ⟨action, hact, hev⟩)
  exact EventRule.ignoresMarks_of_fixed (Bool.not_eq_true' _ ▸ hevent)

/-- Another arena and another initial state, and yet the same plan. -/
theorem stale_run : (stale.arena ≠ used.arena ∧ stale.initial ≠ used.initial) ∧
    planner.run stale = planner.run used ∧ (planner.plan used).isOk = true :=
  ⟨by decide +kernel,
    Planner.run_ignores_stale_marks planner stale_sameButMarks stale_ignoresMarks,
    by decide +kernel⟩

end Lever

/-! ### Events that read marks -/

namespace Tidy

def keeper : Agent := ⟨"keeper"⟩

def predicates : PredicateTable where
  atoms := [⟨"tidy", []⟩]
  nodup := by decide

def isTidy : Predicate := ⟨⟨0⟩, ⟨"tidy", []⟩⟩

def world : WorldId := ⟨0⟩

/-- The room can be tidied unless a search has pruned its only world. -/
def steps : List ActionStep :=
  [.event ⟨"tidy", .perWorld fun _ task =>
    ⟨if (task.arena.world world).pruned then .bottom else .top, .ofList [(isTidy, true)]⟩⟩,
    .designateAll]

def tidyUp : Action := Fallible.get (Action.ofSteps "tidy_up" keeper steps) (by decide)

def initial : State :=
  Fallible.get (State.ofParts [world] (SortedSet.singleton world)
    (Accessibility.discrete [keeper] [world])) (by decide)

def task : PlanningTask :=
  ⟨predicates, Arena.empty.addWorld (.ofTrue []), initial, [tidyUp], .atom isTidy⟩

/-- An earlier search has pruned the only world. -/
def pruned : PlanningTask :=
  { task with arena := task.arena.modifyWorld world fun w => { w with pruned := true } }

def planner : Planner := ⟨{ maxDepth := 1 }, rfl⟩

theorem pruned_sameButMarks : pruned.SameButMarks task :=
  ⟨rfl, Arena.sameShape_modifyWorld fun _ => rfl, rfl, rfl, rfl⟩

/-- An event that works out its outcome from the marks of the task lets them into the plan. -/
theorem pruned_run : pruned.SameButMarks task ∧ planner.run pruned ≠ planner.run task := by
  refine ⟨pruned_sameButMarks, fun heq => ?_⟩
  have hplan : (planner.plan pruned).isOk = (planner.plan task).isOk :=
    congrArg (fun outcome : PlanOutcome => outcome.result.isOk) heq
  have hfails : (planner.plan pruned).isOk = false := by decide +kernel
  have hplans : (planner.plan task).isOk = true := by decide +kernel
  cases hfails.symm.trans (hplan.trans hplans)

end Tidy

end EpistemicPlanning
