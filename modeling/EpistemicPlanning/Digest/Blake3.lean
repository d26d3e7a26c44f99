import EpistemicPlanning.Digest.Word

/-!
# The BLAKE3 digest

`digest` is BLAKE3 in its default mode with 256 bits of output: the input is cut into chunks of
1024 bytes, a chunk into blocks of 64 bytes, and the chaining values of the chunks are joined in a
binary tree whose left branches are full.
-/
namespace EpistemicPlanning.Blake3

/-- A chaining value: eight words. -/
abbrev Chaining := Vector UInt32 8

/-- Sixteen words: the message of a block, or the state it is mixed into. -/
abbrev Block := Vector UInt32 16

/-- The chaining value every chunk starts from. -/
def initial : Chaining :=
  #v[0x6a09e667, 0xbb67ae85, 0x3c6ef372, 0xa54ff53a, 0x510e527f, 0x9b05688c, 0x1f83d9ab,
    0x5be0cd19]

/-- The order in which one round's message words are taken in the next. -/
def permutation : Vector (Fin 16) 16 :=
  #v[2, 6, 3, 10, 7, 0, 4, 13, 1, 11, 12, 5, 9, 14, 15, 8]

/-- The four state words that each step of a round mixes: first the columns, then the
diagonals. -/
def lanes : List (Fin 16 × Fin 16 × Fin 16 × Fin 16) :=
  [(0, 4, 8, 12), (1, 5, 9, 13), (2, 6, 10, 14), (3, 7, 11, 15),
    (0, 5, 10, 15), (1, 6, 11, 12), (2, 7, 8, 13), (3, 4, 9, 14)]

/-- Mixes two message words into four words of the state. -/
def mix (rotate : UInt32 → UInt32 → UInt32) (v : Block) (lane : Fin 16 × Fin 16 × Fin 16 × Fin 16)
    (x y : UInt32) : Block :=
  let (ia, ib, ic, id) := lane
  let a := v[ia] + v[ib] + x
  let d := rotate (v[id] ^^^ a) 16
  let c := v[ic] + d
  let b := rotate (v[ib] ^^^ c) 12
  let a := a + b + y
  let d := rotate (d ^^^ a) 8
  let c := c + d
  let b := rotate (b ^^^ c) 7
  (((v.set ia a).set ib b).set ic c).set id d

/-- One round: step `k` mixes message words `2 * k` and `2 * k + 1`. -/
def round (v m : Block) : Block :=
  (lanes.zip (Word.pieces 1 m.toList)).foldl
    (fun v (lane, words) => mix Word.rotateRight v lane (words.headD 0) (words.getLastD 0)) v

/-- The message words as the next round takes them. -/
def permute (m : Block) : Block := permutation.map fun i => m[i]

/-- The given number of rounds. -/
def rounds : Nat → Block → Block → Block
  | 0, v, _ => v
  | n + 1, v, m => rounds n (round v m) (permute m)

/-- Flags that set the roles of a block apart. -/
def chunkStart : UInt32 := 1
def chunkEnd : UInt32 := 2
def parent : UInt32 := 4
def root : UInt32 := 8

/-- Compresses one block into the next chaining value. -/
def compress (cv : Chaining) (m : Block) (counter : UInt64) (length flags : UInt32) : Chaining :=
  let low : UInt32 := counter.toUInt32
  let high : UInt32 := (counter >>> 32).toUInt32
  let start : Block := cv ++ (#v[initial[0], initial[1], initial[2], initial[3], low, high,
    length, flags] : Vector UInt32 8)
  let v := rounds 7 start m
  Vector.ofFn fun i : Fin 8 => v[i.val] ^^^ v[i.val + 8]

/-- The message words of a block of at most 64 bytes, filled up with zeros. -/
def message (bytes : List UInt8) : Block :=
  let words := (Word.pieces 3 (bytes ++ List.replicate (64 - bytes.length) 0)).map Word.ofBytes
  Vector.ofFn fun i : Fin 16 => words.getD i.val 0

/-- Compresses the remaining blocks of chunk `index`; `flags` are those of the last block. -/
def chunkBlocks (index : UInt64) (flags : UInt32) (start : UInt32) (cv : Chaining) :
    List (List UInt8) → Chaining
  | [] => compress cv (message []) index 0 (start ||| chunkEnd ||| flags)
  | [last] => compress cv (message last) index last.length.toUInt32 (start ||| chunkEnd ||| flags)
  | block :: rest =>
    chunkBlocks index flags 0 (compress cv (message block) index block.length.toUInt32 start) rest

/-- A tree of chunks, each with its position in the input. -/
inductive Tree where
  | chunk (index : Nat) (bytes : List UInt8)
  | join (left right : Tree)

/-- The tree over `chunks`, the first of which has position `index`: the left branch holds the
largest power of two of chunks that leaves some for the right branch. -/
def Tree.ofChunks (index : Nat) : List (List UInt8) → Tree
  | [] => .chunk index []
  | [bytes] => .chunk index bytes
  | first :: second :: rest =>
    let chunks := first :: second :: rest
    let split := 1 <<< (rest.length + 1).log2
    .join (Tree.ofChunks index (chunks.take split))
      (Tree.ofChunks (index + split) (chunks.drop split))
termination_by chunks => chunks.length
decreasing_by
  all_goals
    have hle : 2 ^ (rest.length + 1).log2 ≤ rest.length + 1 := Nat.log2_self_le (by omega)
    have hpos : 0 < 2 ^ (rest.length + 1).log2 := Nat.two_pow_pos _
    simp only [Nat.one_shiftLeft, List.length_take, List.length_drop, List.length_cons]
    omega

/-- The chaining value of a tree; `flags` mark its topmost block. -/
def Tree.chaining (flags : UInt32) : Tree → Chaining
  | .chunk index bytes =>
    chunkBlocks index.toUInt64 flags chunkStart initial (Word.pieces 63 bytes)
  | .join left right =>
    compress initial (left.chaining 0 ++ right.chaining 0) 0 64 (parent ||| flags)

/-- The 32 bytes of the digest of a text of bytes. -/
def digest (bytes : List UInt8) : List UInt8 :=
  ((Tree.ofChunks 0 (Word.pieces 1023 bytes)).chaining root).toList.flatMap Word.toBytes

end EpistemicPlanning.Blake3
