import EpistemicPlanning.Proofs.Accessibility.Assembly
import EpistemicPlanning.Proofs.Action
import EpistemicPlanning.Proofs.Lever
import EpistemicPlanning.Task.Description

/-!
# Assembled tasks

The relation of an action is assembled too, of the agents and pairs that its steps declare. Since
what is assembled depends only on what is mentioned, tasks that differ only in how their relations
have been assembled are the same, and have the same fingerprint
(`assembly_depends_on_mentions`).
-/
namespace EpistemicPlanning

/-! ### Declared relations -/

namespace ActionStep

/-- The step is about what agents can tell apart, and not about the events. -/
def isRelational : ActionStep → Bool
  | .observer _ => true
  | .indistinguishable _ _ _ => true
  | _ => false

/-- The agents that a step mentions. -/
def agents : ActionStep → List Agent
  | .observer a => [a]
  | .indistinguishable a _ _ => [a]
  | _ => []

/-- The pair that a step declares, either way round, and its agent. -/
def links : ActionStep → List (Agent × Link .event)
  | .indistinguishable a e f => [(a, .of e f)]
  | _ => []

end ActionStep

namespace ActionDraft

variable {d d' : ActionDraft} {steps steps' : List ActionStep} {owner : Agent}

/-- How the relation of a draft is assembled. -/
def assembly (d : ActionDraft) : Assembly .event :=
  ⟨d.observers.toList, d.eventIds, d.declared.map fun (a, e, f) => .link a e f⟩

/-- The declared pairs, either way round. -/
def links (d : ActionDraft) : List (Agent × Link .event) :=
  d.declared.map fun (a, e, f) => (a, .of e f)

/-- Linking pairs of known agents succeeds throughout. -/
theorem foldlM_link {r : Accessibility .event} {l : List (Agent × EventId × EventId)}
    (h : ∀ p ∈ l, r.hasAgent p.1 = true) :
    (l.map fun (a, e, f) => Addition.link a e f).foldlM (fun r x => r.edit x.edit) r =
      .ok (l.foldl (fun r (a, e, f) => r.link a e f) r) := by
  induction l generalizing r with
  | nil => rfl
  | cons p l ih =>
    obtain ⟨a, e, f⟩ := p
    have hfirst : r.edit (.addLink a e f) = .ok (r.link a e f) :=
      Accessibility.addLink_eq_ok (h _ List.mem_cons_self)
    rw [List.map_cons, List.foldlM_cons]
    change (r.edit (.addLink a e f) >>= _) = _
    rw [hfirst]
    refine ih fun q hq => ?_
    rw [Accessibility.hasAgent_link]
    exact h q (List.mem_cons_of_mem _ hq)

theorem result_assembly (h : ∀ p ∈ d.declared, p.1 ∈ d.observers) :
    d.assembly.result = .ok d.relation :=
  foldlM_link fun p hp => Accessibility.hasAgent_discrete.2 (h p hp)

theorem declared_observed : ∀ p ∈ (after owner steps).declared,
    p.1 ∈ (after owner steps).observers := by
  refine List.foldlRecOn (motive := fun d : ActionDraft => ∀ p ∈ d.declared, p.1 ∈ d.observers)
    _ _ (fun p hp => absurd hp List.not_mem_nil) fun d h step _ p hp => ?_
  have hold : p ∈ d.declared → p.1 ∈ (d.extend step).observers := fun hp =>
    mem_observers_extend (h p hp) step
  cases step with
  | indistinguishable a e f =>
    rcases List.mem_append.1 hp with hp | hp
    · exact hold hp
    · obtain rfl := List.mem_singleton.1 hp
      exact SortedSet.mem_insert.2 (Or.inl rfl)
  | _ => exact hold hp

/-! ### What each step declares -/

/-- Two drafts have the same events, and the same ones are designated. -/
def SameEvents (d d' : ActionDraft) : Prop := d.events = d'.events ∧ d.designated = d'.designated

/-- The events of a draft do not depend on the steps about what agents can tell apart. -/
theorem sameEvents_foldl (h : d.SameEvents d') :
    (steps.foldl extend d).SameEvents ((steps.filter (!·.isRelational)).foldl extend d') := by
  induction steps generalizing d d' with
  | nil => exact h
  | cons step steps ih =>
    obtain ⟨hevents, hdes⟩ := h
    cases step with
    | event e => exact ih ⟨congrArg (· ++ [e]) hevents, hdes⟩
    | designate e => exact ih ⟨hevents, congrArg (·.insert e) hdes⟩
    | designateAll =>
      refine ih ⟨hevents, ?_⟩
      simp only [extend, extendBy, eventIds, hevents, hdes]
    | observer a => exact ih ⟨hevents, hdes⟩
    | indistinguishable a e f => exact ih ⟨hevents, hdes⟩

theorem mem_observers_foldl {a : Agent} : a ∈ (steps.foldl extend d).observers ↔
    a ∈ d.observers ∨ a ∈ steps.flatMap ActionStep.agents := by
  induction steps generalizing d with
  | nil => simp
  | cons step steps ih =>
    rw [List.foldl_cons, ih, List.flatMap_cons, List.mem_append, ← or_assoc]
    refine or_congr_left ?_
    cases step with
    | observer b => simp [extend, extendBy, ActionStep.agents, or_comm]
    | indistinguishable b e f => simp [extend, extendBy, ActionStep.agents, or_comm]
    | _ => simp [extend, extendBy, ActionStep.agents]

theorem links_foldl : (steps.foldl extend d).links = d.links ++ steps.flatMap ActionStep.links := by
  induction steps generalizing d with
  | nil => simp
  | cons step steps ih =>
    rw [List.foldl_cons, ih, List.flatMap_cons, ← List.append_assoc]
    cases step with
    | indistinguishable b e f => simp [extend, extendBy, ActionStep.links, links]
    | _ => simp [extend, extendBy, ActionStep.links, links]

/-! ### Drafts that are alike -/

theorem mem_allAgents_assembly {a : Agent} : a ∈ d.assembly.allAgents ↔ a ∈ d.observers := by
  simp [Assembly.allAgents, assembly, Addition.agents, List.flatMap_map, SortedSet.mem_def]

theorem allLinks_assembly : d.assembly.allLinks = d.links := by
  unfold Assembly.allLinks assembly links
  rw [List.flatMap_map, List.map_eq_flatMap]
  rfl

/-- The nodes of the assembly are the events and the ends of declared pairs. -/
theorem mem_allNodes_assembly {n : EventId} : n ∈ d.assembly.allNodes ↔
    n ∈ d.eventIds ∨ ∃ p ∈ d.links, n = p.2.low ∨ n = p.2.high := by
  simp only [Assembly.allNodes, assembly, links, List.mem_append, List.flatMap_map,
    List.mem_flatMap, List.mem_map, exists_exists_and_eq_and, Addition.nodes, List.mem_pair,
    Link.eq_end_of_iff]

theorem alike_assembly (hevents : d.SameEvents d') (hobservers : d.observers = d'.observers)
    (hlinks : ∀ l, l ∈ d.links ↔ l ∈ d'.links) : d.assembly.Alike d'.assembly where
  agents a := by rw [mem_allAgents_assembly, mem_allAgents_assembly, hobservers]
  nodes n := by
    rw [mem_allNodes_assembly, mem_allNodes_assembly, eventIds, eventIds, hevents.1]
    simp only [hlinks]
  links l := by rw [allLinks_assembly, allLinks_assembly, hlinks]

end ActionDraft

/-! ### Actions that are alike -/

/-- What an action is declared by. -/
structure ActionDeclaration where
  name : String
  owner : Agent
  steps : List ActionStep

namespace ActionDeclaration

variable {d d' : ActionDeclaration} {action action' : Action}

/-- The declaration is accepted and makes up the action. -/
def Declares (d : ActionDeclaration) (action : Action) : Prop :=
  Action.ofSteps d.name d.owner d.steps = .ok action

/-- Two declarations differ only in how the relation is assembled: they agree on all else, and their
steps mention the same agents and the same pairs, either way round. -/
structure Alike (d d' : ActionDeclaration) : Prop where
  name : d.name = d'.name
  owner : d.owner = d'.owner
  events : d.steps.filter (!·.isRelational) = d'.steps.filter (!·.isRelational)
  agents : ∀ a, a ∈ d.steps.flatMap ActionStep.agents ↔ a ∈ d'.steps.flatMap ActionStep.agents
  links : ∀ l, l ∈ d.steps.flatMap ActionStep.links ↔ l ∈ d'.steps.flatMap ActionStep.links

/-- The draft when all has been declared. -/
def draft (d : ActionDeclaration) : ActionDraft := .after d.owner d.steps

theorem Alike.sameEvents (h : d.Alike d') : d.draft.SameEvents d'.draft := by
  have hd : d.draft.SameEvents _ := ActionDraft.sameEvents_foldl ⟨rfl, rfl⟩
  have hd' : d'.draft.SameEvents _ := ActionDraft.sameEvents_foldl ⟨rfl, rfl⟩
  rw [h.events, h.owner] at hd
  exact ⟨hd.1.trans hd'.1.symm, hd.2.trans hd'.2.symm⟩

theorem Alike.observers (h : d.Alike d') : d.draft.observers = d'.draft.observers := by
  refine SortedSet.ext fun a => ?_
  unfold draft ActionDraft.after
  rw [ActionDraft.mem_observers_foldl, ActionDraft.mem_observers_foldl, h.owner, h.agents]

theorem Alike.relation (h : d.Alike d') : d.draft.relation = d'.draft.relation := by
  have hlinks : ∀ l, l ∈ d.draft.links ↔ l ∈ d'.draft.links := by
    intro l
    unfold draft ActionDraft.after
    rw [ActionDraft.links_foldl, ActionDraft.links_foldl, List.mem_append, List.mem_append,
      h.links]
    rfl
  exact (ActionDraft.alike_assembly h.sameEvents h.observers hlinks).eq_of_result
    (ActionDraft.result_assembly ActionDraft.declared_observed)
    (ActionDraft.result_assembly ActionDraft.declared_observed)

theorem Declares.eq (h : d.Declares action) :
    ∃ model, PointedModel.ofParts d.draft.eventIds d.draft.designated d.draft.relation =
        .ok model ∧ action = ⟨d.name, d.owner, d.draft.events, model⟩ := by
  unfold Declares Action.ofSteps Action.ofStepsBy at h
  dsimp only at h
  split at h
  · next model hmodel =>
    exact ⟨model, (ActionDraft.model_eq_ok hmodel).2, (Except.ok.inj h).symm⟩
  · cases h

theorem Alike.eq_action (h : d.Alike d') (hd : d.Declares action) (hd' : d'.Declares action') :
    action = action' := by
  obtain ⟨model, hmodel, rfl⟩ := hd.eq
  obtain ⟨model', hmodel', rfl⟩ := hd'.eq
  obtain ⟨hevents, hdes⟩ := h.sameEvents
  rw [ActionDraft.eventIds, hevents, hdes, h.relation] at hmodel
  obtain rfl : model = model' := Except.ok.inj (hmodel.symm.trans hmodel')
  rw [h.name, h.owner, hevents]

end ActionDeclaration

/-! ### Tasks that are alike -/

/-- What a task is declared by. -/
structure TaskDeclaration where
  predicates : PredicateTable
  arena : Arena
  worlds : List WorldId
  designated : SortedSet WorldId
  relation : Assembly .world
  actions : List ActionDeclaration
  goal : Formula

namespace TaskDeclaration

variable {d d' : TaskDeclaration} {t t' : PlanningTask}

/-- All parts of the declaration are accepted, and they make up the task. -/
structure Declares (d : TaskDeclaration) (t : PlanningTask) : Prop where
  initial : ∃ r, d.relation.result = .ok r ∧
    State.ofParts d.worlds d.designated r = .ok t.initial
  actions : List.Forall₂ ActionDeclaration.Declares d.actions t.actions
  parts : PlanningTask.ofParts d.predicates d.arena t.initial t.actions d.goal = .ok t

/-- Two declarations differ only in how relations are assembled: that of the initial state, and
those of the actions. -/
structure Alike (d d' : TaskDeclaration) : Prop where
  predicates : d.predicates = d'.predicates
  arena : d.arena = d'.arena
  worlds : d.worlds = d'.worlds
  designated : d.designated = d'.designated
  relation : d.relation.Alike d'.relation
  actions : List.Forall₂ ActionDeclaration.Alike d.actions d'.actions
  goal : d.goal = d'.goal

theorem eq_actions {ds ds' : List ActionDeclaration} {actions actions' : List Action}
    (h : List.Forall₂ ActionDeclaration.Alike ds ds')
    (hd : List.Forall₂ ActionDeclaration.Declares ds actions)
    (hd' : List.Forall₂ ActionDeclaration.Declares ds' actions') : actions = actions' := by
  induction h generalizing actions actions' with
  | nil =>
    cases hd
    cases hd'
    rfl
  | cons halike _ ih =>
    cases hd with
    | cons hfirst hrest =>
      cases hd' with
      | cons hfirst' hrest' => rw [halike.eq_action hfirst hfirst', ih hrest hrest']

/-- How relations have been assembled makes no difference to a task. -/
theorem Alike.eq_task (h : d.Alike d') (hd : d.Declares t) (hd' : d'.Declares t') : t = t' := by
  obtain ⟨r, hr, hinitial⟩ := hd.initial
  obtain ⟨r', hr', hinitial'⟩ := hd'.initial
  obtain rfl := h.relation.eq_of_result hr hr'
  rw [h.worlds, h.designated] at hinitial
  have hsame : t.initial = t'.initial := Except.ok.inj (hinitial.symm.trans hinitial')
  have hactions := eq_actions h.actions hd.actions hd'.actions
  have hparts := hd.parts
  rw [h.predicates, h.arena, h.goal, hsame, hactions] at hparts
  exact Except.ok.inj (hparts.symm.trans hd'.parts)

end TaskDeclaration

/-! ### All together -/

/-- What has been assembled depends only on what was mentioned. -/
structure DependsOnMentions : Prop where
  /-- A relation that has been assembled holds exactly what was mentioned. -/
  holds : ∀ {kind : HandleKind} (A : Assembly kind) r, A.result = .ok r → A.Holds r
  /-- Relations of the same agents, nodes and links, in whatever order, number and direction they
  come, have the same agents and the same nodes, and store the same links of each agent. -/
  relation : ∀ {kind : HandleKind} (A B : Assembly kind) r r', A.Alike B → A.result = .ok r →
    B.result = .ok r' → r.agents = r'.agents ∧ r.nodes = r'.nodes ∧
      ∀ a, r.linksOf a = r'.linksOf a
  /-- Tasks that differ only in how their relations are assembled have the same fingerprint. -/
  fingerprint : ∀ (d d' : TaskDeclaration) t t', d.Alike d' → d.Declares t → d'.Declares t' →
    t.fingerprint = t'.fingerprint

theorem assembly_depends_on_mentions : DependsOnMentions where
  holds _ _ h := Assembly.holds_of_result h
  relation _ _ _ _ h hA hB := by
    obtain rfl := h.eq_of_result hA hB
    exact ⟨rfl, rfl, fun _ => rfl⟩
  fingerprint _ _ _ _ h hd hd' := by rw [h.eq_task hd hd']

namespace Lever

/-- The declaration of the lever. -/
def declaration : TaskDeclaration where
  predicates := predicates
  arena := arena
  worlds := [world 0, world 1, world 2]
  designated := SortedSet.singleton (world 1)
  relation := ⟨[left, right], [world 0, world 1, world 2],
    [.link left (world 1) (world 2), .link right (world 0) (world 1)]⟩
  actions := [⟨"pull_left", left, pullLeftSteps⟩, ⟨"pull_right", right, pullRightSteps⟩]
  goal := .atom (position 0)

theorem declaration_declares : declaration.Declares task where
  initial := ⟨relation, by decide +kernel, initial_eq⟩
  actions := .cons (Fallible.eq_ok_get _ _) (.cons (Fallible.eq_ok_get _ _) .nil)
  parts := rfl

/-- The steps of pulling to the left in another order, with pairs declared twice and the other way
round. -/
def shuffledSteps : List ActionStep :=
  [.indistinguishable right ⟨2⟩ ⟨1⟩, move 0 0, move 1 0, .observer right,
    .indistinguishable right ⟨0⟩ ⟨1⟩, .indistinguishable right ⟨1⟩ ⟨0⟩, move 2 1, .designateAll,
    .indistinguishable right ⟨2⟩ ⟨0⟩, .observer left]

/-- The relation of the lever in another order: one agent and two positions come late. -/
def shuffledAssembly : Assembly .world :=
  ⟨[right], [world 2], [.node (world 0), .link right (world 1) (world 0), .agent left,
    .link left (world 2) (world 1), .link left (world 1) (world 2), .node (world 1)]⟩

def shuffled : TaskDeclaration :=
  { declaration with
    relation := shuffledAssembly
    actions := [⟨"pull_left", left, shuffledSteps⟩, ⟨"pull_right", right, pullRightSteps⟩] }

def shuffledRelation : Accessibility .world := Fallible.get shuffledAssembly.result (by decide)

def shuffledInitial : State :=
  Fallible.get (State.ofParts [world 0, world 1, world 2] (SortedSet.singleton (world 1))
    shuffledRelation) (by decide +kernel)

theorem shuffledInitial_eq : State.ofParts [world 0, world 1, world 2]
    (SortedSet.singleton (world 1)) shuffledRelation = .ok shuffledInitial :=
  Fallible.eq_ok_get _ _

def shuffledTask : PlanningTask where
  predicates := predicates
  arena := arena
  initial := shuffledInitial
  actions := [Fallible.get (Action.ofSteps "pull_left" left shuffledSteps) (by decide), pullRight]
  goal := .atom (position 0)

theorem shuffled_declares : shuffled.Declares shuffledTask where
  initial := ⟨shuffledRelation, Fallible.eq_ok_get _ _, shuffledInitial_eq⟩
  actions := .cons (Fallible.eq_ok_get _ _) (.cons (Fallible.eq_ok_get _ _) .nil)
  parts := rfl

theorem alike_shuffled : declaration.Alike shuffled where
  predicates := rfl
  arena := rfl
  worlds := rfl
  designated := rfl
  relation :=
    { agents := fun a => ⟨by revert a; decide +kernel, by revert a; decide +kernel⟩
      nodes := fun n => ⟨by revert n; decide +kernel, by revert n; decide +kernel⟩
      links := fun l => ⟨by revert l; decide +kernel, by revert l; decide +kernel⟩ }
  actions := by
    refine .cons ⟨rfl, rfl, rfl, fun a => ⟨?_, ?_⟩, fun l => ⟨?_, ?_⟩⟩
      (.cons ⟨rfl, rfl, rfl, fun _ => Iff.rfl, fun _ => Iff.rfl⟩ .nil)
    · revert a
      decide +kernel
    · revert a
      decide +kernel
    · revert l
      decide +kernel
    · revert l
      decide +kernel
  goal := rfl

/-- The lever that is assembled in another order is the same task. -/
theorem shuffled_fingerprint : declaration.Alike shuffled ∧ declaration.Declares task ∧
    shuffled.Declares shuffledTask ∧ task.fingerprint = shuffledTask.fingerprint :=
  ⟨alike_shuffled, declaration_declares, shuffled_declares,
    assembly_depends_on_mentions.fingerprint _ _ _ _ alike_shuffled declaration_declares
      shuffled_declares⟩

end Lever

end EpistemicPlanning
