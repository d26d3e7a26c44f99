import EpistemicPlanning.Json.Magnitude

/-!
# JSON values

`Value.parse` reads a whole text as one value. It walks the tokens once and keeps the containers
that are still open on a stack, so nesting may be arbitrarily deep.

`Value.storable` marks the values that can be kept as data: nesting is bounded, every string has a
text, and every number is in the range of double precision.
-/
namespace EpistemicPlanning.Json

/-- A value. A key or string is absent when it holds a lone surrogate. -/
inductive Value where
  | null
  | bool (b : Bool)
  | number (n : Number)
  | string (text : Option String)
  | array (items : List Value)
  | object (entries : List (Option String × Value))
  deriving Inhabited

/-- A container that is not closed yet, with what it holds so far, latest first. -/
inductive Frame where
  | array (items : List Value)
  | object (entries : List (Option String × Value))
  /-- An object in which a key has been read whose value has not. -/
  | entry (key : Option String) (entries : List (Option String × Value))

/-- How far the reading of a value has got. -/
inductive Progress where
  /-- A value has to follow. -/
  | value (stack : List Frame)
  /-- A value or the end of the array has to follow. -/
  | firstItem (stack : List Frame)
  /-- A key or the end of the object has to follow. -/
  | firstKey (stack : List Frame)
  /-- A key has to follow. -/
  | key (entries : List (Option String × Value)) (stack : List Frame)
  /-- A colon has to follow. -/
  | colon (stack : List Frame)
  /-- An item has been read, so a comma or the end of the container has to follow. -/
  | separator (stack : List Frame)
  /-- The value is complete, and nothing may follow. -/
  | done (v : Value)

/-- Puts a complete value where it belongs. -/
def complete (v : Value) : List Frame → Progress
  | [] => .done v
  | .array items :: stack => .separator (.array (v :: items) :: stack)
  | .object entries :: stack => .separator (.object entries :: stack)
  | .entry key entries :: stack => .separator (.object ((key, v) :: entries) :: stack)

/-- Reads a token where a value has to start. -/
def startValue (stack : List Frame) : Token → Option Progress
  | .null => some (complete .null stack)
  | .bool b => some (complete (.bool b) stack)
  | .number n => some (complete (.number n) stack)
  | .string s => some (complete (.string s) stack)
  | .openArray => some (.firstItem stack)
  | .openObject => some (.firstKey stack)
  | _ => none

/-- Reads one token. -/
def Progress.read : Progress → Token → Option Progress
  | value stack, t => startValue stack t
  | firstItem stack, .closeArray => some (complete (.array []) stack)
  | firstItem stack, t => startValue (.array [] :: stack) t
  | firstKey stack, .closeObject => some (complete (.object []) stack)
  | firstKey stack, .string s => some (.colon (.entry s [] :: stack))
  | key entries stack, .string s => some (.colon (.entry s entries :: stack))
  | colon stack, .colon => some (.value stack)
  | separator (.array items :: stack), .comma => some (.value (.array items :: stack))
  | separator (.array items :: stack), .closeArray =>
    some (complete (.array items.reverse) stack)
  | separator (.object entries :: stack), .comma => some (.key entries stack)
  | separator (.object entries :: stack), .closeObject =>
    some (complete (.object entries.reverse) stack)
  | _, _ => none

namespace Value

/-- The value that a whole text spells. -/
def parse (text : String) : Option Value := do
  match ← (← Token.scan text).foldlM Progress.read (.value []) with
  | .done v => return v
  | _ => none

end Value

/-! ### Numbers and what can be stored -/

/-- The natural number that is written without sign, point and exponent. -/
def Number.natural? (n : Number) : Option Nat :=
  if n.negative || n.fraction.isSome || n.exponent.isSome then none else some n.whole

/-- A natural number as it is written. -/
def Number.ofNat (n : Nat) : Number := ⟨false, n, none, none⟩

mutual

/-- Whether a value can be kept as data with `depth` levels of containers. -/
def Value.storable (depth : Nat) : Value → Bool
  | .null | .bool _ => true
  | .number n => n.isFinite
  | .string s => s.isSome
  | .array items => 0 < depth && storableItems (depth - 1) items
  | .object entries => 0 < depth && storableEntries (depth - 1) entries

/-- Whether all items can be kept. -/
def storableItems (depth : Nat) : List Value → Bool
  | [] => true
  | v :: rest => v.storable depth && storableItems depth rest

/-- Whether all entries can be kept. -/
def storableEntries (depth : Nat) : List (Option String × Value) → Bool
  | [] => true
  | (k, v) :: rest => k.isSome && v.storable depth && storableEntries depth rest

end

end EpistemicPlanning.Json
