import EpistemicPlanning.Digest.Blake3

/-!
# The stream of random words

Random choices are made from the key stream of ChaCha with twelve rounds. A seed is stretched to
the key by a permuted congruential generator; the nonce is zero and the block counter starts at
zero. Every seed thus gives its own stream of words.
-/
namespace EpistemicPlanning

/-- A key of eight words. -/
abbrev Key := Vector UInt32 8

namespace Key

/-- One step of the generator that stretches a seed. -/
def advance (s : UInt64) : UInt64 := s * 6364136223846793005 + 11634580027462260723

/-- The word that the generator puts out in a state. -/
def output (s : UInt64) : UInt32 :=
  Word.rotateRight (((s >>> 18) ^^^ s) >>> 27).toUInt32 (s >>> 59).toUInt32

/-- The next words that the generator puts out after a state. -/
def outputs : Nat → UInt64 → List UInt32
  | 0, _ => []
  | n + 1, s => output (advance s) :: outputs n (advance s)

/-- The key that a seed is stretched to. -/
def ofSeed (seed : UInt64) : Key :=
  let words := outputs 8 seed
  Vector.ofFn fun i : Fin 8 => words.getD i.val 0

end Key

namespace ChaCha

/-- The state of sixteen words. -/
abbrev Block := Vector UInt32 16

/-- Mixes four words of the state, as the digest does where it has no message and rotates the other
way. -/
def quarterRound (v : Block) (lane : Fin 16 × Fin 16 × Fin 16 × Fin 16) : Block :=
  Blake3.mix Word.rotateLeft v lane 0 0

/-- The given number of double rounds. -/
def doubleRounds : Nat → Block → Block
  | 0, v => v
  | n + 1, v => doubleRounds n (Blake3.lanes.foldl quarterRound v)

/-- The state that block `counter` starts from: constants, key, counter and a zero nonce. -/
def start (key : Key) (counter : UInt64) : Block :=
  (#v[0x61707865, 0x3320646e, 0x79622d32, 0x6b206574] : Vector UInt32 4) ++ key
    ++ (#v[counter.toUInt32, (counter >>> 32).toUInt32, 0, 0] : Vector UInt32 4)

/-- The words of block `counter` of the key stream, with six double rounds. -/
def block (key : Key) (counter : UInt64) : List UInt32 :=
  let v := start key counter
  (Vector.zipWith (· + ·) v (doubleRounds 6 v)).toList

end ChaCha

/-- A position in a key stream: the words that are left of a block, and the next block. -/
structure Keystream where
  key : Key
  counter : UInt64
  buffer : List UInt32

namespace Keystream

/-- The stream of a seed, from its first word. -/
def ofSeed (seed : UInt64) : Keystream := ⟨.ofSeed seed, 0, []⟩

/-- The next word, and the stream after it. -/
def next (s : Keystream) : UInt32 × Keystream :=
  match s.buffer with
  | w :: rest => (w, { s with buffer := rest })
  | [] =>
    let words := ChaCha.block s.key s.counter
    (words.headD 0, { s with counter := s.counter + 1, buffer := words.tail })

end Keystream

end EpistemicPlanning
