/-!
# Fingerprints

A fingerprint is a digest kept to compare one task with another; it is shown as hexadecimal digits.
-/
namespace EpistemicPlanning

/-- The digest of a description. -/
structure Fingerprint where
  bytes : List UInt8
  deriving DecidableEq, Repr, Inhabited

/-- The two hexadecimal digits of a byte. -/
def Fingerprint.byteText (b : UInt8) : String :=
  String.ofList [Nat.digitChar (b.toNat / 16), Nat.digitChar (b.toNat % 16)]

/-- A fingerprint as it is shown: two lower-case hexadecimal digits a byte. -/
def Fingerprint.text (f : Fingerprint) : String := String.join (f.bytes.map byteText)

end EpistemicPlanning
