import EpistemicPlanning.Predicate.Effects

/-!
# Valuations

A valuation stores the truth value of the predicate with handle `i` as bit `i % 64` of word
`i / 64`; what lies beyond the stored words is false. Making a predicate true adds the words that
are missing, and nothing ever takes a word away.
-/
namespace EpistemicPlanning

/-- A truth assignment. -/
structure Valuation where
  words : Array UInt64
  deriving DecidableEq, Repr, Inhabited

namespace Valuation

/-- The word in which bit `i` alone is set. -/
def bit (i : Nat) : UInt64 := .ofBitVec (BitVec.twoPow 64 i)

/-- Whether bit `i` of a word is set. -/
def testBit (w : UInt64) (i : Nat) : Bool := w.toBitVec.getLsbD i

/-- The valuation under which every predicate is false. -/
def allFalse : Valuation := ⟨#[]⟩

/-- The truth value of the predicate with handle `id`. -/
def get (v : Valuation) (id : PredicateId) : Bool :=
  match v.words[id.index / 64]? with
  | some w => testBit w (id.index % 64)
  | none => false

/-- The truth value of a predicate. -/
def holds (v : Valuation) (p : Predicate) : Bool := v.get p.id

/-- The valuation with the truth value of one predicate changed. -/
def set (v : Valuation) (id : PredicateId) (value : Bool) : Valuation :=
  let word := id.index / 64
  let mask := bit (id.index % 64)
  if value then
    let padded := v.words ++ Array.replicate (word + 1 - v.words.size) 0
    ⟨padded.modify word fun w => w ||| mask⟩
  else ⟨v.words.modify word fun w => w &&& ~~~mask⟩

/-- The valuation under which the given predicates are true, and no others. -/
def ofTrue (predicates : List Predicate) : Valuation :=
  predicates.foldl (fun v p => v.set p.id true) allFalse

/-- The valuation after some effects: the forced predicates have the forced values. -/
def apply (v : Valuation) (effects : Effects) : Valuation :=
  effects.entries.foldl (fun v (_, a) => v.set a.id a.value) v

/-- The handles of the true predicates, in ascending order. -/
def trueIds (v : Valuation) : List PredicateId :=
  v.words.toList.zipIdx.flatMap fun (w, i) =>
    ((List.range 64).filter (testBit w)).map fun b => ⟨i * 64 + b⟩

/-- Whether two valuations make the same predicates true, however many words they store. -/
def same (v u : Valuation) : Bool :=
  (List.range (max v.words.size u.words.size)).all fun i =>
    v.words[i]?.getD 0 == u.words[i]?.getD 0

end Valuation

end EpistemicPlanning
