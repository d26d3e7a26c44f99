/-!
# Tokens of JSON

`Token.scan` cuts a text into the tokens of RFC 8259, and refuses a text that is not made of them.
Blanks are spaces, tabs, line feeds and carriage returns.

A string may spell a character as two escaped UTF-16 surrogates. A surrogate without its partner
is allowed by the grammar but stands for no character; such a string has no decoded text.
-/
namespace EpistemicPlanning.Json

/-- A number as it is written: sign, digits before and after the point, and exponent. -/
structure Number where
  negative : Bool
  whole : Nat
  fraction : Option (List Char)
  exponent : Option Int
  deriving DecidableEq, Repr

/-- A token. The text of a string is absent when it holds a lone surrogate. -/
inductive Token where
  | openArray
  | closeArray
  | openObject
  | closeObject
  | comma
  | colon
  | null
  | bool (b : Bool)
  | number (n : Number)
  | string (text : Option String)
  deriving DecidableEq, Repr

/-- What is left of `cs` after at least one character. -/
abbrev Rest (cs : List Char) := { rest : List Char // rest.length < cs.length }

/-! ### Strings -/

/-- A part of a string: a character, or the UTF-16 unit of an escape with four digits. -/
inductive Piece where
  | char (c : Char)
  | unit (u : Nat)
  deriving DecidableEq, Repr

/-- The value of a hexadecimal digit. -/
def hexValue (c : Char) : Option Nat :=
  if '0' ≤ c ∧ c ≤ '9' then some (c.toNat - '0'.toNat)
  else if 'a' ≤ c ∧ c ≤ 'f' then some (c.toNat - 'a'.toNat + 10)
  else if 'A' ≤ c ∧ c ≤ 'F' then some (c.toNat - 'A'.toNat + 10)
  else none

/-- The unit that four hexadecimal digits spell. -/
def hexUnit (a b c d : Char) : Option Nat := do
  return ((← hexValue a) * 16 + (← hexValue b)) * 256 + (← hexValue c) * 16 + (← hexValue d)

/-- The character that an escape of one letter stands for. -/
def escaped (c : Char) : Option Char :=
  match c with
  | '"' => some '"'
  | '\\' => some '\\'
  | '/' => some '/'
  | 'b' => some '\x08'
  | 'f' => some '\x0c'
  | 'n' => some '\n'
  | 'r' => some '\r'
  | 't' => some '\t'
  | _ => none

/-- Reads the rest of a string, up to its closing quote; `before` holds the pieces already read,
latest first. -/
def scanString (before : List Piece) : (cs : List Char) → Option (List Piece × Rest cs)
  | [] => none
  | '"' :: rest => some (before.reverse, ⟨rest, by simp⟩)
  | '\\' :: 'u' :: a :: b :: c :: d :: rest =>
    match hexUnit a b c d with
    | none => none
    | some u =>
      match scanString (.unit u :: before) rest with
      | none => none
      | some (pieces, ⟨r, h⟩) => some (pieces, ⟨r, by simp only [List.length_cons]; omega⟩)
  | '\\' :: e :: rest =>
    match escaped e with
    | none => none
    | some c =>
      match scanString (.char c :: before) rest with
      | none => none
      | some (pieces, ⟨r, h⟩) => some (pieces, ⟨r, by simp only [List.length_cons]; omega⟩)
  | c :: rest =>
    if c.toNat < 0x20 || c = '\\' then none
    else
      match scanString (.char c :: before) rest with
      | none => none
      | some (pieces, ⟨r, h⟩) => some (pieces, ⟨r, by simp only [List.length_cons]; omega⟩)

/-- Whether a unit is the first of two surrogates. -/
def isHighSurrogate (u : Nat) : Bool := 0xD800 ≤ u && u < 0xDC00

/-- Whether a unit is the second of two surrogates. -/
def isLowSurrogate (u : Nat) : Bool := 0xDC00 ≤ u && u < 0xE000

/-- The characters that some pieces spell, unless a surrogate lacks its partner. -/
def decode : List Piece → Option (List Char)
  | [] => some []
  | .char c :: rest => (decode rest).map (c :: ·)
  | .unit u :: .unit v :: rest =>
    if isHighSurrogate u then
      if isLowSurrogate v then
        (decode rest).map
          (Char.ofNat (0x10000 + (u - 0xD800) * 0x400 + (v - 0xDC00)) :: ·)
      else none
    else if isLowSurrogate u then none
    else (decode (.unit v :: rest)).map (Char.ofNat u :: ·)
  | .unit u :: rest =>
    if isHighSurrogate u || isLowSurrogate u then none
    else (decode rest).map (Char.ofNat u :: ·)

/-! ### Numbers -/

/-- Whether a character is a decimal digit. -/
def isDigit (c : Char) : Bool := '0' ≤ c && c ≤ '9'

/-- A number with one more decimal digit. -/
def decimalAfter (n : Nat) (c : Char) : Nat := 10 * n + (c.toNat - '0'.toNat)

/-- The number that decimal digits spell. -/
def decimal (digits : List Char) : Nat := digits.foldl decimalAfter 0

theorem length_dropWhile_le (p : Char → Bool) (cs : List Char) :
    (cs.dropWhile p).length ≤ cs.length :=
  (List.dropWhile_suffix p).length_le

/-- The leading digits of a text, of which there has to be one. -/
def scanDigits (cs : List Char) : Option (List Char × Rest cs) :=
  match cs with
  | [] => none
  | c :: rest =>
    if isDigit c then
      some (c :: rest.takeWhile isDigit,
        ⟨rest.dropWhile isDigit, Nat.lt_succ_of_le (length_dropWhile_le isDigit rest)⟩)
    else none

/-- The digits before the point: a zero alone, or digits that do not start with zero. -/
def scanWhole (cs : List Char) : Option (Nat × Rest cs) :=
  match cs with
  | '0' :: rest => if (rest.head?.map isDigit).getD false then none else some (0, ⟨rest, by simp⟩)
  | cs => (scanDigits cs).map fun (digits, rest) => (decimal digits, rest)

/-- The fraction of a number: a point and digits, or nothing. -/
def scanFraction (cs : List Char) :
    Option (Option (List Char) × { rest : List Char // rest.length ≤ cs.length }) :=
  match cs with
  | '.' :: after =>
    (scanDigits after).map fun (digits, ⟨rest, h⟩) =>
      (some digits, ⟨rest, by simp only [List.length_cons]; omega⟩)
  | cs => some (none, ⟨cs, Nat.le_refl _⟩)

/-- The digits of an exponent, with or without a sign. -/
def scanSigned (cs : List Char) : Option (Int × Rest cs) :=
  match cs with
  | '-' :: after =>
    (scanDigits after).map fun (digits, ⟨rest, h⟩) =>
      (-(decimal digits : Int), ⟨rest, by simp only [List.length_cons]; omega⟩)
  | '+' :: after =>
    (scanDigits after).map fun (digits, ⟨rest, h⟩) =>
      ((decimal digits : Int), ⟨rest, by simp only [List.length_cons]; omega⟩)
  | cs => (scanDigits cs).map fun (digits, rest) => ((decimal digits : Int), rest)

/-- The exponent of a number: a letter and an integer, or nothing. -/
def scanExponent (cs : List Char) :
    Option (Option Int × { rest : List Char // rest.length ≤ cs.length }) :=
  match cs with
  | 'e' :: after | 'E' :: after =>
    (scanSigned after).map fun (e, ⟨rest, h⟩) =>
      (some e, ⟨rest, by simp only [List.length_cons]; omega⟩)
  | cs => some (none, ⟨cs, Nat.le_refl _⟩)

/-- A number without its sign. -/
def scanMagnitude (negative : Bool) (cs : List Char) : Option (Number × Rest cs) := do
  let (whole, ⟨afterWhole, hw⟩) ← scanWhole cs
  let (fraction, ⟨afterFraction, hf⟩) ← scanFraction afterWhole
  let (exponent, ⟨rest, he⟩) ← scanExponent afterFraction
  return (⟨negative, whole, fraction, exponent⟩, ⟨rest, by omega⟩)

/-- A number. -/
def scanNumber (cs : List Char) : Option (Number × Rest cs) :=
  match cs with
  | '-' :: after =>
    (scanMagnitude true after).map fun (n, ⟨rest, h⟩) =>
      (n, ⟨rest, by simp only [List.length_cons]; omega⟩)
  | cs => scanMagnitude false cs

/-! ### Texts -/

/-- Whether a character may stand between tokens. -/
def isBlank (c : Char) : Bool := c = ' ' || c = '\t' || c = '\n' || c = '\r'

/-- The first token of a text that does not start with a blank. -/
def scanToken (cs : List Char) : Option (Token × Rest cs) :=
  match cs with
  | '[' :: rest => some (.openArray, ⟨rest, by simp⟩)
  | ']' :: rest => some (.closeArray, ⟨rest, by simp⟩)
  | '\x7b' :: rest => some (.openObject, ⟨rest, by simp⟩)
  | '\x7d' :: rest => some (.closeObject, ⟨rest, by simp⟩)
  | ',' :: rest => some (.comma, ⟨rest, by simp⟩)
  | ':' :: rest => some (.colon, ⟨rest, by simp⟩)
  | 'n' :: 'u' :: 'l' :: 'l' :: rest => some (.null, ⟨rest, by simp; omega⟩)
  | 't' :: 'r' :: 'u' :: 'e' :: rest => some (.bool true, ⟨rest, by simp; omega⟩)
  | 'f' :: 'a' :: 'l' :: 's' :: 'e' :: rest => some (.bool false, ⟨rest, by simp; omega⟩)
  | '"' :: after =>
    (scanString [] after).map fun (pieces, ⟨rest, h⟩) =>
      (.string ((decode pieces).map String.ofList), ⟨rest, by simp only [List.length_cons]; omega⟩)
  | cs => (scanNumber cs).map fun (n, rest) => (.number n, rest)

/-- The tokens of a text; `before` holds those already read, latest first. -/
def scanFrom (before : List Token) (cs : List Char) : Option (List Token) :=
  match hcs : cs.dropWhile isBlank with
  | [] => some before.reverse
  | c :: rest =>
    match scanToken (c :: rest) with
    | none => none
    | some (token, ⟨next, hnext⟩) =>
      have : next.length < cs.length := by
        have hle := length_dropWhile_le isBlank cs
        rw [hcs] at hle
        omega
      scanFrom (token :: before) next
termination_by cs.length

/-- The tokens of a text. -/
def Token.scan (text : String) : Option (List Token) := scanFrom [] text.toList

end EpistemicPlanning.Json
