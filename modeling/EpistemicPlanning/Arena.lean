import EpistemicPlanning.Agent
import EpistemicPlanning.Cost
import EpistemicPlanning.Handle
import EpistemicPlanning.Ordered.Map
import EpistemicPlanning.Valuation

/-!
# The arena

The arena owns all worlds, and the provenance edges from a world to those that the product update
made of it. Worlds and edges refer to each other by handle. Both carry marks that a search writes
on them: costs and what has been pruned.
-/
namespace EpistemicPlanning

/-- A possible world. -/
structure World where
  valuation : Valuation
  /-- The edge the world was made by; an initial world has none. -/
  incoming : Option EdgeId
  /-- The edges to the worlds made of this one, oldest first. -/
  outgoing : List EdgeId
  /-- The cost of reaching the goal from here. -/
  cost : Cost
  /-- For each agent, the worst cost over the worlds it cannot tell apart from this one. -/
  agentCosts : SortedMap Agent Cost
  /-- Whether the edge the world was made by is pruned. -/
  pruned : Bool
  deriving DecidableEq, Inhabited

/-- A world without provenance and without marks. -/
def World.initial (valuation : Valuation) : World :=
  ⟨valuation, none, [], .undefined, ∅, false⟩

/-- The step from a world to one that the product update made of it. -/
structure ProvenanceEdge where
  child : WorldId
  parent : WorldId
  event : EventId
  action : ActionId
  /-- Who performed the action. -/
  agent : Agent
  /-- The cost of reaching the goal by this step. -/
  cost : Cost
  /-- Whether its agent would never take this step. -/
  pruned : Bool
  deriving DecidableEq, Inhabited

/-- All worlds and edges; the handle of each is its position. -/
structure Arena where
  worlds : Array World
  edges : Array ProvenanceEdge
  deriving DecidableEq, Inhabited

namespace Arena

/-- The arena without worlds. -/
def empty : Arena := ⟨#[], #[]⟩

/-- Whether the arena has a world. -/
def contains (a : Arena) (w : WorldId) : Bool := w.index < a.worlds.size

/-- The world with a given handle. -/
def world (a : Arena) (w : WorldId) : World := a.worlds[w.index]?.getD default

/-- The edge with a given handle. -/
def edge (a : Arena) (e : EdgeId) : ProvenanceEdge := a.edges[e.index]?.getD default

/-- Changes one world. -/
def modifyWorld (a : Arena) (w : WorldId) (f : World → World) : Arena :=
  { a with worlds := a.worlds.modify w.index f }

/-- Changes one edge. -/
def modifyEdge (a : Arena) (e : EdgeId) (f : ProvenanceEdge → ProvenanceEdge) : Arena :=
  { a with edges := a.edges.modify e.index f }

/-- The handle that the next world gets. -/
def nextWorld (a : Arena) : WorldId := ⟨a.worlds.size⟩

/-- The handle that the next edge gets. -/
def nextEdge (a : Arena) : EdgeId := ⟨a.edges.size⟩

/-- The arena with one more world, which has no provenance. -/
def addWorld (a : Arena) (valuation : Valuation) : Arena :=
  { a with worlds := a.worlds.push (.initial valuation) }

/-- The arena with one more world, made of `parent` by an event of an action. -/
def addChild (a : Arena) (parent : WorldId) (event : EventId) (action : ActionId)
    (agent : Agent) (valuation : Valuation) : Arena :=
  let child := a.nextWorld
  let edge := a.nextEdge
  let worlds := a.worlds.push { World.initial valuation with incoming := some edge }
  { worlds := worlds.modify parent.index fun w => { w with outgoing := w.outgoing ++ [edge] }
    edges := a.edges.push ⟨child, parent, event, action, agent, .undefined, false⟩ }

/-- `addChild` with handles that are words. When the words have been used up, new worlds share the
last of them, and so do new edges; what is written to a new world then goes to the one that has had
its handle first. -/
def addChildInWords (a : Arena) (parent : WorldId) (event : EventId) (action : ActionId)
    (agent : Agent) (valuation : Valuation) : Arena :=
  let child := a.nextWorld.word
  let edge := a.nextEdge.word
  let made := (a.addWorld valuation).modifyWorld child fun w => { w with incoming := some edge }
  { worlds := (made.modifyWorld parent fun w => { w with outgoing := w.outgoing ++ [edge] }).worlds
    edges := a.edges.push ⟨child, parent, event, action, agent, .undefined, false⟩ }

/-- The world that a world was made of. -/
def parentOf (a : Arena) (w : WorldId) : Option WorldId :=
  (a.world w).incoming.map fun e => (a.edge e).parent

/-- Whether the edge that a world was made by is pruned. -/
def incomingPruned (a : Arena) (w : WorldId) : Bool :=
  (a.world w).incoming.any fun e => (a.edge e).pruned

/-- The arena with every cost undefined, apart from the costs that agents see. -/
def resetCosts (a : Arena) : Arena where
  worlds := a.worlds.map fun w => { w with cost := .undefined }
  edges := a.edges.map fun e => { e with cost := .undefined }

/-- The arena with nothing pruned and without the costs that agents see. -/
def resetPruning (a : Arena) : Arena where
  worlds := a.worlds.map fun w => { w with pruned := false, agentCosts := ∅ }
  edges := a.edges.map fun e => { e with pruned := false }

end Arena

end EpistemicPlanning
