import EpistemicPlanning.Accessibility

/-!
# Pointed models

States and actions have one shape: possible nodes, some of which are designated, and what each
agent cannot tell apart. Possible nodes are worlds in a state and events in an action.
-/
namespace EpistemicPlanning

/-- Possible nodes, designated nodes and an accessibility relation. -/
structure PointedModel (kind : HandleKind) where
  possible : List (Handle kind)
  designated : SortedSet (Handle kind)
  relation : Accessibility kind
  deriving DecidableEq

namespace PointedModel

variable {kind : HandleKind}

instance : Inhabited (PointedModel kind) := ⟨⟨[], ∅, default⟩⟩

/-- The model with the given parts, or the first of its defects: possible nodes are listed once,
and the designated nodes and those of the relation are possible. Possible nodes that the relation
does not know yet are added to it. -/
def ofParts (possible : List (Handle kind)) (designated : SortedSet (Handle kind))
    (relation : Accessibility kind) : Except (ShapeDefect kind) (PointedModel kind) :=
  if possible.Nodup then
    match designated.toList.find? fun n => n ∉ possible with
    | some stray => .error (.strayDesignated stray)
    | none =>
      match relation.nodes.toList.find? fun n => n ∉ possible with
      | some stray => .error (.strayRelated stray)
      | none => .ok ⟨possible, designated, possible.foldl Accessibility.addNode relation⟩
  else .error .duplicateNode

/-- Whether a node is designated. -/
def isDesignated (m : PointedModel kind) (n : Handle kind) : Bool := m.designated.contains n

/-- The agents of the relation, in order. -/
def agents (m : PointedModel kind) : List Agent := m.relation.agents.toList

/-- The nodes that an agent cannot tell apart from one of the given nodes. -/
def spread (m : PointedModel kind) (a : Agent) :
    List (Handle kind) → Except ModelError (SortedSet (Handle kind))
  | [] => .ok ∅
  | n :: rest => do
    let near ← m.relation.accessible a n
    let others ← m.spread a rest
    return near ∪ others

/-- The model as an agent sees it: every node that the agent cannot tell apart from a designated
one is designated. -/
def perspective (m : PointedModel kind) (a : Agent) : Except ModelError (PointedModel kind) :=
  (m.spread a m.designated.toList).map fun designated => { m with designated }

end PointedModel

end EpistemicPlanning
