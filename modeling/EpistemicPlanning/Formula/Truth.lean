import EpistemicPlanning.Arena
import EpistemicPlanning.Formula
import EpistemicPlanning.PointedModel

/-!
# Truth of formulas

A state is a pointed model whose nodes are worlds of an arena. Truth at a world is evaluated from
left to right and stops as soon as it is decided, so an agent without a relation is noticed only
where its knowledge matters.
-/
namespace EpistemicPlanning

/-- A pointed model over worlds. -/
abbrev State := PointedModel .world

mutual

/-- The truth of a formula at a world of a state. An agent knows what holds at every world it
cannot tell apart from the present one. -/
def Formula.evaluate (arena : Arena) (state : State) :
    Formula → WorldId → Except ModelError Bool
  | .top, _ => .ok true
  | .bottom, _ => .ok false
  | .atom p, w => .ok ((arena.world w).valuation.holds p)
  | .not f, w => (f.evaluate arena state w).map (!·)
  | .and f g, w => do
    if ← f.evaluate arena state w then g.evaluate arena state w else .ok false
  | .or f g, w => do
    if ← f.evaluate arena state w then .ok true else g.evaluate arena state w
  | .implies f g, w => do
    if ← f.evaluate arena state w then g.evaluate arena state w else .ok true
  | .all fs, w => Formula.evaluateAll arena state fs w
  | .any fs, w => Formula.evaluateAny arena state fs w
  | .knows a f, w => do
    let near ← state.relation.accessible a w
    near.toList.allM (f.evaluate arena state)

/-- Whether all formulas of a list hold at a world. -/
def Formula.evaluateAll (arena : Arena) (state : State) :
    List Formula → WorldId → Except ModelError Bool
  | [], _ => .ok true
  | f :: fs, w => do
    if ← f.evaluate arena state w then Formula.evaluateAll arena state fs w else .ok false

/-- Whether some formula of a list holds at a world. -/
def Formula.evaluateAny (arena : Arena) (state : State) :
    List Formula → WorldId → Except ModelError Bool
  | [], _ => .ok false
  | f :: fs, w => do
    if ← f.evaluate arena state w then .ok true else Formula.evaluateAny arena state fs w

end

namespace PointedModel

/-- Whether a formula holds at every designated world of a state. -/
def satisfies (s : State) (arena : Arena) (f : Formula) : Except ModelError Bool :=
  s.designated.toList.allM (f.evaluate arena s)

/-- The worlds of a state at which a formula holds. -/
def worldsSatisfying (s : State) (arena : Arena) (f : Formula) :
    Except ModelError (List WorldId) :=
  s.possible.filterM (f.evaluate arena s)

end PointedModel

end EpistemicPlanning
