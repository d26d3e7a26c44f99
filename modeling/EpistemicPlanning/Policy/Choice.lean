import EpistemicPlanning.Policy.Keystream

/-!
# Unbiased choice

To choose one of `n` things, a random word `v` is stretched to the product `v * n`. Its high half
is the choice and its low half decides whether the word is fair: a word whose low half lies beyond
the zone is drawn anew. The zone ends at `n` times a power of two, so that every choice is made by
equally many fair words.
-/
namespace EpistemicPlanning.Choice

/-- The number of different words. -/
def wordCount : Nat := UInt32.size

/-- The last value of the zone: one less than the greatest product of `n` and a power of two that
is a word. -/
def zone (n : Nat) : Nat := n <<< (31 - n.log2) - 1

/-- Whether a word is fair for a choice among `n`. -/
def isFair (n : Nat) (v : UInt32) : Bool := v.toNat * n % wordCount ≤ zone n

/-- The choice that a word makes among `n` things. -/
def select (n : Nat) (h : 0 < n) (v : UInt32) : Fin n :=
  ⟨v.toNat * n / wordCount, by
    have hv : v.toNat < wordCount := v.toNat_lt
    exact Nat.div_lt_of_lt_mul (Nat.mul_lt_mul_of_pos_right hv h)⟩

/-- The number of words after which a stream repeats itself. -/
def period : Nat := 16 * UInt64.size

/-- Draws words until one is fair, or until `redraws` more have been drawn. -/
def drawFair (n : Nat) : Nat → Keystream → UInt32 × Keystream
  | 0, s => s.next
  | redraws + 1, s =>
    let (v, s) := s.next
    if isFair n v then (v, s) else drawFair n redraws s

/-- Chooses one of `n` things. -/
def pick (n : Nat) (h : 0 < n) (s : Keystream) : Fin n × Keystream :=
  let (v, s) := drawFair n period s
  (select n h v, s)

end EpistemicPlanning.Choice
