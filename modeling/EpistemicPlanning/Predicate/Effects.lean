import EpistemicPlanning.Ordered.Map
import EpistemicPlanning.Predicate

/-!
# Effects

The effects of an event force some atoms to a truth value and leave all others alone.
-/
namespace EpistemicPlanning

/-- A truth value for the atom whose truth is stored at `id`. -/
structure Assignment where
  id : PredicateId
  value : Bool
  deriving DecidableEq, Repr

/-- The forced truth values, in the order of the atoms. -/
abbrev Effects := SortedMap GroundAtom Assignment

namespace Effects

/-- Forces a predicate to a truth value. An atom that is forced already keeps the handle it came
with and takes the new value. -/
def assign (e : Effects) (p : Predicate) (value : Bool) : Effects :=
  e.upsert p.atom fun
    | some old => { old with value := value }
    | none => ⟨p.id, value⟩

/-- Forces several predicates, one after the other. -/
def ofList (l : List (Predicate × Bool)) : Effects :=
  l.foldl (fun e (p, value) => e.assign p value) ∅

end Effects

end EpistemicPlanning
