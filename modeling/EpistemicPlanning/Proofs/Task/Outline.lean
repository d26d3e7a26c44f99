import EpistemicPlanning.Proofs.Text.Names
import EpistemicPlanning.Task.Description

/-!
# Outlines of tasks

The description of a task is the text of its outline: what is true at the initial worlds, which are
designated, who cannot tell which apart, the signatures of the actions and the goal
(`PlanningTask.description_eq_texts`).
-/
namespace EpistemicPlanning

variable {kind : HandleKind} {s : String}

/-- A true predicate: its atom or, where the table does not know it, its handle. -/
inductive Mention where
  | atom (a : GroundAtom)
  | handle (id : PredicateId)

/-- A true predicate as it is described. -/
def Mention.text : Mention → String
  | .atom a => a.text
  | .handle id => id.text

/-- What is described of an action. -/
@[ext]
structure Signature where
  name : String
  owner : Agent
  /-- The names of the events, and whether they are designated. -/
  events : List (String × Bool)
  links : SortedMap Agent (SortedSet (Link .event))

/-- What is described of a task. -/
@[ext]
structure Outline where
  /-- The initial worlds, each with its true predicates. -/
  worlds : List (WorldId × List Mention)
  designated : SortedSet WorldId
  links : SortedMap Agent (SortedSet (Link .world))
  actions : List Signature
  goal : String

def Action.signature (a : Action) : Signature where
  name := a.name
  owner := a.owner
  events := (a.events.zip a.eventIds).map fun (e, id) => (e.name, a.isDesignated id)
  links := a.relation.links

namespace PlanningTask

variable {t : PlanningTask}

def mention (t : PlanningTask) (id : PredicateId) : Mention :=
  match t.predicates.ofId? id with
  | some p => .atom p.atom
  | none => .handle id

def outline (t : PlanningTask) : Outline where
  worlds := t.initial.possible.map fun w => (w, (t.arena.world w).valuation.trueIds.map t.mention)
  designated := t.initial.designated
  links := t.initial.relation.links
  actions := t.actions.map Action.signature
  goal := t.goal.text

end PlanningTask

/-! ### Texts -/

/-- The agents, each with the links below it. -/
def linkParagraphs (links : SortedMap Agent (SortedSet (Link kind))) : List (Paragraph String) :=
  links.entries.map fun (a, ls) => ⟨a.name, ls.toList.map Link.text⟩

namespace Signature

/-- The mark of an event that is designated or not. -/
def mark (designated : Bool) : String := if designated then "*" else "-"

def eventTexts (e : String × Bool) : List String := [e.1, mark e.2]

/-- The texts before the links. -/
def heading (s : Signature) : List String :=
  [s.name, s.owner.name] ++ s.events.flatMap eventTexts

def texts (s : Signature) : List String := s.heading ++ Paragraph.lines (linkParagraphs s.links)

end Signature

namespace Outline

/-- The worlds, each with the true predicates below it. -/
def worldParagraphs (o : Outline) : List (Paragraph String) :=
  o.worlds.map fun (w, ms) => ⟨w.text, ms.map Mention.text⟩

def designatedText (w : WorldId) : String := "designated " ++ w.text

/-- The texts before the links. -/
def heading (o : Outline) : List String :=
  Paragraph.lines o.worldParagraphs ++ o.designated.toList.map designatedText

/-- The texts before the actions. -/
def stateTexts (o : Outline) : List String :=
  o.heading ++ Paragraph.lines (linkParagraphs o.links)

def texts (o : Outline) : List String :=
  o.stateTexts ++ o.actions.flatMap Signature.texts ++ [o.goal]

end Outline

theorem Accessibility.description_eq_lines {r : Accessibility kind} :
    r.description = Paragraph.lines (linkParagraphs r.links) := by
  unfold description Paragraph.lines linkParagraphs
  rw [List.flatMap_map]
  rfl

namespace PlanningTask

theorem actionDescription_eq_texts {a : Action} : actionDescription a = a.signature.texts := by
  unfold actionDescription Signature.texts Signature.heading Action.signature
  rw [Accessibility.description_eq_lines, List.flatMap_map]
  rfl

theorem predicateText_eq_text {t : PlanningTask} :
    t.predicateText = fun id => (t.mention id).text := by
  funext id
  unfold predicateText mention
  cases t.predicates.ofId? id <;> rfl

theorem worldsDescription_eq_lines {t : PlanningTask} :
    t.worldsDescription = Paragraph.lines t.outline.worldParagraphs := by
  unfold worldsDescription Outline.worldParagraphs Paragraph.lines outline
  rw [predicateText_eq_text, List.map_map, List.flatMap_map]
  simp only [Function.comp_apply, List.map_map]
  rfl

theorem description_eq_texts {t : PlanningTask} : t.description = t.outline.texts := by
  have hactions : t.actions.flatMap actionDescription =
      t.outline.actions.flatMap Signature.texts := by
    rw [outline, List.flatMap_map]
    exact congrArg (fun f => t.actions.flatMap f) (funext fun _ => actionDescription_eq_texts)
  rw [description, Outline.texts, Outline.stateTexts, Outline.heading, worldsDescription_eq_lines,
    Accessibility.description_eq_lines, hactions]
  rfl

end PlanningTask

end EpistemicPlanning
