import EpistemicPlanning.Json.Token

/-!
# The range of numbers

A number is in range when double precision can hold it. Its value there is the product of a
significand and a power of ten. The significand is made of the leading digits, as many as fit a
word of 64 bits; the digits after them only move the point. Significand, power and product are
rounded one after the other, so the bound lies not quite where a single rounding would put it.
-/
namespace EpistemicPlanning.Json

/-- The multiple of `unit` nearest to `n`; of two that are equally near, the even one. -/
def roundToMultiple (unit n : Nat) : Nat :=
  let below := n / unit
  let twice := 2 * (n % unit)
  if unit < twice ∨ (twice = unit ∧ below % 2 = 1) then (below + 1) * unit else below * unit

/-- The number of binary digits of a significand in double precision. -/
def precision : Nat := 53

/-- A natural number rounded to double precision, where the exponent is unbounded. -/
def roundToPrecision (n : Nat) : Nat := roundToMultiple (1 <<< (n.log2 + 1 - precision)) n

/-- Appends digits to a number as long as it fits a word, and returns the digits left over. -/
def absorb (n : Nat) : List Char → Nat × List Char
  | [] => (n, [])
  | c :: rest =>
    let next := decimalAfter n c
    if next < UInt64.size then absorb next rest else (n, c :: rest)

namespace Number

/-- The significand and the power of ten of a number. -/
def scaled (n : Number) : Nat × Int :=
  let (leading, dropped) := absorb 0 (Nat.toDigits 10 n.whole)
  let fraction := n.fraction.getD []
  let (significand, unread) := absorb leading fraction
  (significand, n.exponent.getD 0 + dropped.length - (fraction.length - unread.length))

/-- The greatest power of ten in double precision. -/
def maxPower : Nat := 308

/-- Whether double precision can hold a number. -/
def isFinite (n : Number) : Bool :=
  let (significand, power) := n.scaled
  if significand = 0 || power ≤ 0 then true
  else if (maxPower : Int) < power then false
  else
    roundToPrecision (roundToPrecision significand * roundToPrecision (.pow 10 power.toNat)) <
      1 <<< 1024

end Number

end EpistemicPlanning.Json
