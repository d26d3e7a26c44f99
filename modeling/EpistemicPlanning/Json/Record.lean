import EpistemicPlanning.Json.Text

/-!
# Records in JSON

A record is read from an object that has its fields in any order, or from an array of its fields in
the order of their declaration. Unknown fields of an object are passed over; a known field may not
be given twice, and an array may not be too long.
-/
namespace EpistemicPlanning.Json

/-- A named value. -/
abbrev Entry := Option String × Value

/-- The values given for a field. -/
def given (entries : List Entry) (name : String) : List Value :=
  (entries.filter fun e => e.1 = some name).map Prod.snd

/-- The value of a field, if it is given; it may not be given twice. -/
def field? (entries : List Entry) (name : String) : Option (Option Value) :=
  match given entries name with
  | [] => some none
  | [v] => some (some v)
  | _ => none

/-- The values of the fields of a record, where they are given. -/
def Value.fields? (names : List String) : Value → Option (List (Option Value))
  | .array items =>
    if items.length ≤ names.length then
      some (items.map some ++ List.replicate (names.length - items.length) none)
    else none
  | .object entries =>
    if entries.all fun e => e.1.isSome then names.mapM (field? entries) else none
  | _ => none

namespace Value

/-- A natural number below a bound. -/
def natBelow? (bound : Nat) : Value → Option Nat
  | .number n => n.natural?.filter (· < bound)
  | _ => none

/-- A number of 32 bits. -/
def nat32? : Value → Option Nat := natBelow? UInt32.size

/-- A number of 64 bits. -/
def nat64? : Value → Option Nat := natBelow? UInt64.size

/-- A truth value. -/
def bool? : Value → Option Bool
  | .bool b => some b
  | _ => none

/-- A text. -/
def text? : Value → Option String
  | .string s => s
  | _ => none

/-- A list of values that are all read alike. -/
def list? {α : Type} (read : Value → Option α) : Value → Option (List α)
  | .array items => items.mapM read
  | _ => none

/-- Nothing, or a value. -/
def nullable? {α : Type} (read : Value → Option α) : Value → Option (Option α)
  | .null => some none
  | v => (read v).map some

/-- A natural number. -/
def ofNat (n : Nat) : Value := .number (.ofNat n)

/-- A text. -/
def ofText (s : String) : Value := .string (some s)

/-- A list of values that are all written alike. -/
def ofList {α : Type} (write : α → Value) (l : List α) : Value := .array (l.map write)

/-- A record with named fields. -/
def record (fields : List (String × Value)) : Value :=
  .object (fields.map fun (name, v) => (some name, v))

end Value

end EpistemicPlanning.Json
