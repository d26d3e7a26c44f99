import EpistemicPlanning.Json.Value

/-!
# Writing JSON

Values are written without blanks. In a string only the quote, the backslash and the control
characters below U+0020 are escaped, by a letter where there is one and else by four lower-case
hexadecimal digits.
-/
namespace EpistemicPlanning.Json

/-- The two lower-case hexadecimal digits of a number below 256. -/
def hexPair (n : Nat) : String := String.ofList [Nat.digitChar (n / 16), Nat.digitChar (n % 16)]

/-- A character as it is written in a string. -/
def escape (c : Char) : String :=
  if c = '"' then "\\\""
  else if c = '\\' then "\\\\"
  else if c = '\x08' then "\\b"
  else if c = '\t' then "\\t"
  else if c = '\n' then "\\n"
  else if c = '\x0c' then "\\f"
  else if c = '\r' then "\\r"
  else if c.toNat < 0x20 then "\\u00" ++ hexPair c.toNat
  else c.toString

/-- A string as it is written. -/
def quote (s : String) : String := "\"" ++ String.join (s.toList.map escape) ++ "\""

/-- A number as it is written. -/
def Number.text (n : Number) : String :=
  (if n.negative then "-" else "") ++ toString n.whole
    ++ (n.fraction.elim "" fun digits => "." ++ String.ofList digits)
    ++ (n.exponent.elim "" fun e => "e" ++ toString e)

mutual

/-- A value as it is written. -/
def Value.text : Value → String
  | .null => "null"
  | .bool true => "true"
  | .bool false => "false"
  | .number n => n.text
  | .string s => quote (s.getD "")
  | .array [] => "[]"
  | .array (v :: rest) => "[" ++ v.text ++ itemsText rest ++ "]"
  | .object [] => "\x7b\x7d"
  | .object ((k, v) :: rest) =>
    "\x7b" ++ quote (k.getD "") ++ ":" ++ v.text ++ entriesText rest ++ "\x7d"

/-- The further items of an array, each after a comma. -/
def itemsText : List Value → String
  | [] => ""
  | v :: rest => "," ++ v.text ++ itemsText rest

/-- The further entries of an object, each after a comma. -/
def entriesText : List (Option String × Value) → String
  | [] => ""
  | (k, v) :: rest => "," ++ quote (k.getD "") ++ ":" ++ v.text ++ entriesText rest

end

end EpistemicPlanning.Json
