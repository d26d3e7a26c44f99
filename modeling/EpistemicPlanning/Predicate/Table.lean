import EpistemicPlanning.Error
import EpistemicPlanning.Predicate

/-!
# The table of predicates

A table gives each atom a handle on first use. Handles are dense and follow the order of first
use, so the same sequence of uses always gives the same handles.
-/
namespace EpistemicPlanning

/-- The known atoms; the handle of an atom is its position. -/
structure PredicateTable where
  atoms : List GroundAtom
  nodup : atoms.Nodup
  deriving DecidableEq

namespace PredicateTable

/-- The table without predicates. -/
def empty : PredicateTable := ⟨[], .nil⟩

instance : EmptyCollection PredicateTable := ⟨empty⟩

instance : Inhabited PredicateTable := ⟨empty⟩

/-- The predicate of an atom that is in the table. -/
def find? (t : PredicateTable) (a : GroundAtom) : Option Predicate :=
  (t.atoms.idxOf? a).map fun i => ⟨⟨i⟩, a⟩

/-- The predicate with a given handle. -/
def ofId? (t : PredicateTable) (id : PredicateId) : Option Predicate :=
  t.atoms[id.index]?.map fun a => ⟨id, a⟩

/-- The predicates in the order of their handles. -/
def toList (t : PredicateTable) : List Predicate :=
  t.atoms.zipIdx.map fun (a, i) => ⟨⟨i⟩, a⟩

/-- The number of predicates. -/
def size (t : PredicateTable) : Nat := t.atoms.length

/-- Whether the table has no predicate. -/
def isEmpty (t : PredicateTable) : Bool := t.atoms.isEmpty

/-- The table with an atom at its end, unless it is there already. -/
def add (t : PredicateTable) (a : GroundAtom) : PredicateTable :=
  if h : a ∈ t.atoms then t
  else ⟨t.atoms ++ [a], List.nodup_append.2 ⟨t.nodup, List.pairwise_singleton _ a, by
    intro x hx y hy
    rw [List.mem_singleton.1 hy]
    rintro rfl
    exact h hx⟩⟩

/-- The predicate of an atom, together with the table that has it. An atom with a blank name is
refused, and so is a new one when all handles of 32 bits are given out. -/
def intern (t : PredicateTable) (a : GroundAtom) :
    Except ValidationError (Predicate × PredicateTable) :=
  if Text.isBlank a.name then .error .emptyPredicateName
  else
    match t.find? a with
    | some p => .ok (p, t)
    | none =>
      if t.size < UInt32.size then .ok (⟨⟨t.size⟩, a⟩, t.add a)
      else .error (.malformedState .tableFull)

end PredicateTable

end EpistemicPlanning
