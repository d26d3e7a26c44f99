import EpistemicPlanning.Digest.Blake3
import EpistemicPlanning.Task

/-!
# Fingerprints of tasks

A task is described by a list of texts: what is true at the initial worlds, which are designated,
the initial relation, the signatures of the actions and the goal. The fingerprint is the digest of
the texts, each ended by a zero byte. Preconditions and effects are no part of it.
-/
namespace EpistemicPlanning

/-- The links of each agent: the agent's name, then each link as `a~b`. -/
def Accessibility.description {kind : HandleKind} (r : Accessibility kind) : List String :=
  r.links.entries.flatMap fun (a, ls) =>
    a.name :: ls.toList.map fun l => l.low.text ++ "~" ++ l.high.text

namespace PlanningTask

/-- A true predicate by its text, or by its handle where the table does not know it. -/
def predicateText (t : PlanningTask) (id : PredicateId) : String :=
  match t.predicates.ofId? id with
  | some p => p.text
  | none => id.text

/-- The initial worlds, each with its true predicates. -/
def worldsDescription (t : PlanningTask) : List String :=
  t.initial.possible.flatMap fun w =>
    w.text :: (t.arena.world w).valuation.trueIds.map t.predicateText

/-- The name and owner of an action, its events with a mark for the designated ones, and its
relation. -/
def actionDescription (a : Action) : List String :=
  a.name :: a.owner.name
    :: (a.events.zip a.eventIds).flatMap (fun (e, id) =>
      [e.name, if a.isDesignated id then "*" else "-"])
    ++ a.relation.description

/-- The texts that describe a task. -/
def description (t : PlanningTask) : List String :=
  t.worldsDescription
    ++ t.initial.designated.toList.map (fun w => "designated " ++ w.text)
    ++ t.initial.relation.description
    ++ t.actions.flatMap actionDescription
    ++ [t.goal.text]

/-- The bytes of some texts, each ended by a zero byte. -/
def encode (texts : List String) : List UInt8 :=
  texts.flatMap fun s => s.toUTF8.toList ++ [0]

/-- The digest of the description of a task. -/
def fingerprint (t : PlanningTask) : Fingerprint := ⟨Blake3.digest (encode t.description)⟩

end PlanningTask

end EpistemicPlanning
