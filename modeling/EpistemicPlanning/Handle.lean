/-!
# Handles

Worlds, provenance edges, events, actions, search nodes and predicates are referred to by their
position. A handle is such a position, and its kind keeps positions in different stores apart.
-/
namespace EpistemicPlanning

/-- What a handle points to. -/
inductive HandleKind where
  | world
  | edge
  | event
  | action
  | node
  | predicate
  deriving DecidableEq, Repr

/-- The mark written before the number of a handle. Provenance edges are bare numbers. -/
def HandleKind.mark : HandleKind → String
  | .world => "w"
  | .edge => ""
  | .event => "e"
  | .action => "a"
  | .node => "n"
  | .predicate => "#"

/-- The name of a kind of handle in a diagnostic. -/
def HandleKind.noun : HandleKind → String
  | .world => "WorldId"
  | .edge => "EdgeId"
  | .event => "EventId"
  | .action => "ActionId"
  | .node => "NodeId"
  | .predicate => "PredicateId"

/-- The position of something of kind `kind` in the store that owns it. -/
structure Handle (kind : HandleKind) where
  index : Nat
  deriving DecidableEq, Repr, Inhabited

abbrev WorldId := Handle .world
abbrev EdgeId := Handle .edge
abbrev EventId := Handle .event
abbrev ActionId := Handle .action
abbrev NodeId := Handle .node
abbrev PredicateId := Handle .predicate

namespace Handle

variable {kind : HandleKind}

/-- Handles are ordered by position. -/
instance : Ord (Handle kind) := ⟨compareOn index⟩

instance : Std.TransOrd (Handle kind) :=
  inferInstanceAs (Std.TransCmp (compareOn fun h : Handle kind => h.index))

instance : Std.LawfulEqOrd (Handle kind) where
  compare_self {a} := Nat.compare_eq_eq.2 rfl
  eq_of_compare {a b} h := by
    cases a
    cases b
    exact congrArg Handle.mk (Nat.compare_eq_eq.1 h)

/-- A handle as it is given out: a word of 32 bits. The last word stands for all positions from its
own on. -/
def word (h : Handle kind) : Handle kind := ⟨min h.index (UInt32.size - 1)⟩

/-- A handle as it is shown: its mark and its number. -/
def text (h : Handle kind) : String := kind.mark ++ toString h.index

/-- A handle as a diagnostic names it, with its kind spelled out. -/
def diagnostic (h : Handle kind) : String := kind.noun ++ "(" ++ toString h.index ++ ")"

end Handle

end EpistemicPlanning
