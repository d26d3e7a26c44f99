/-!
# Blank text

The blank characters are those with the Unicode property `White_Space`. A name that holds nothing
else is blank.
-/
namespace EpistemicPlanning.Text

/-- The code points with the property `White_Space`, as inclusive ranges in ascending order. -/
def blankRanges : List (Nat × Nat) :=
  [(0x0009, 0x000D), (0x0020, 0x0020), (0x0085, 0x0085), (0x00A0, 0x00A0), (0x1680, 0x1680),
    (0x2000, 0x200A), (0x2028, 0x2029), (0x202F, 0x202F), (0x205F, 0x205F), (0x3000, 0x3000)]

/-- Whether a character is blank. -/
def isBlankChar (c : Char) : Bool :=
  blankRanges.any fun (first, last) => first ≤ c.toNat && c.toNat ≤ last

/-- Whether a text holds blank characters only; the empty text does. -/
def isBlank (s : String) : Bool := s.toList.all isBlankChar

end EpistemicPlanning.Text
