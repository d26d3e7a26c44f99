/-!
# Words of 32 bits

Rotation, little-endian bytes and cutting a list into pieces of fixed length: the ground shared by
the digest and the key stream.
-/
namespace EpistemicPlanning.Word

/-- A word rotated towards its high end by `n` bits, for `n < 32`. -/
def rotateLeft (x : UInt32) (n : UInt32) : UInt32 := (x <<< n) ||| (x >>> (32 - n))

/-- A word rotated towards its low end by `n` bits, for `n < 32`. -/
def rotateRight (x : UInt32) (n : UInt32) : UInt32 := (x >>> n) ||| (x <<< (32 - n))

/-- The four bytes of a word, lowest first. -/
def toBytes (x : UInt32) : List UInt8 :=
  [x.toUInt8, (x >>> 8).toUInt8, (x >>> 16).toUInt8, (x >>> 24).toUInt8]

/-- The word whose lowest bytes are the given ones, lowest first. -/
def ofBytes (bytes : List UInt8) : UInt32 :=
  bytes.foldr (fun b x => (x <<< 8) ||| b.toUInt32) 0

/-- The pieces of length `n + 1` of a list, in order; the last one may be shorter. -/
def pieces {α : Type} (n : Nat) (l : List α) : List (List α) :=
  if h : l.length ≤ n + 1 then
    if l.isEmpty then [] else [l]
  else l.take (n + 1) :: pieces n (l.drop (n + 1))
termination_by l.length
decreasing_by simp only [List.length_drop]; omega

end EpistemicPlanning.Word
