/-!
# Costs

A cost counts the steps to the goal in the worst case. It is finite, infinite when no goal can be
reached, or undefined while it has not been computed. A finite cost taken from an unfinished search
is provisional: the true cost is at least its value.

Costs are totally ordered: undefined below every finite cost, infinity above, and a provisional
cost just above the settled cost of the same value.
-/
namespace EpistemicPlanning

/-- The number of steps to the goal, as far as it is known. -/
inductive Cost where
  | undefined
  | finite (value : UInt32) (provisional : Bool)
  | infinity
  deriving DecidableEq, Repr

namespace Cost

instance : Inhabited Cost := ⟨undefined⟩

/-- A finite cost that is known. -/
def settled (value : UInt32) : Cost := finite value false

/-- A finite cost that is only a lower bound. -/
def provisional (value : UInt32) : Cost := finite value true

/-- Whether the cost is finite and provisional. -/
def isProvisional : Cost → Bool
  | finite _ provisional => provisional
  | _ => false

/-- Whether the cost is finite and known. -/
def isSettledFinite : Cost → Bool
  | finite _ provisional => !provisional
  | _ => false

/-- Whether the cost is known: finite and not provisional, or infinite. -/
def isSettled : Cost → Bool
  | undefined => false
  | finite _ provisional => !provisional
  | infinity => true

/-- Whether the cost is finite. -/
def isFinite : Cost → Bool
  | finite _ _ => true
  | _ => false

/-- The number of steps, if it is finite. -/
def value? : Cost → Option UInt32
  | finite value _ => some value
  | _ => none

/-- The cost with one more step in front. The largest number of steps stays as it is. -/
def successor : Cost → Cost
  | finite value provisional =>
    finite (if value = 0xFFFFFFFF then value else value + 1) provisional
  | c => c

/-- The place of a cost in the order of all costs. -/
def rank : Cost → Nat
  | undefined => 0
  | finite value provisional => 2 * value.toNat + (if provisional then 2 else 1)
  | infinity => 2 * UInt32.size + 1

/-- Costs are ordered by rank. -/
instance : Ord Cost := ⟨compareOn rank⟩

instance : LE Cost := ⟨fun a b => a.rank ≤ b.rank⟩

instance : DecidableLE Cost := fun a b => inferInstanceAs (Decidable (a.rank ≤ b.rank))

instance : Min Cost := minOfLe

instance : Max Cost := maxOfLe

/-- Compares how many steps two costs stand for, whether provisional or not; an undefined cost
compares with nothing. -/
def valueCompare : Cost → Cost → Option Ordering
  | undefined, _ => none
  | _, undefined => none
  | infinity, infinity => some .eq
  | infinity, finite _ _ => some .gt
  | finite _ _, infinity => some .lt
  | finite a _, finite b _ => some (compare a b)

/-- Whether a cost stands for fewer steps than another. -/
def isStrictlyBelow (a b : Cost) : Bool := a.valueCompare b == some .lt

/-- The cost of the best of several alternatives: the least settled finite cost, else the least
provisional one, else infinity. -/
def best (costs : List Cost) : Cost :=
  match (costs.filter isSettledFinite).min? with
  | some c => c
  | none => (costs.filter isProvisional).min?.getD infinity

/-- The cost of the worst of several possibilities: the greatest provisional cost, else the
greatest settled one, else undefined. -/
def worst (costs : List Cost) : Cost :=
  match (costs.filter isProvisional).max? with
  | some c => c
  | none => (costs.filter isSettled).max?.getD undefined

/-- A cost as it is shown. -/
def text : Cost → String
  | undefined => "undefined"
  | finite value false => toString value.toNat
  | finite value true => ">=" ++ toString value.toNat
  | infinity => "inf"

end Cost

end EpistemicPlanning
