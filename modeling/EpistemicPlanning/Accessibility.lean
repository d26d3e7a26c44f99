import EpistemicPlanning.Accessibility.Classes
import EpistemicPlanning.Error
import EpistemicPlanning.Ordered.Map

/-!
# What agents cannot tell apart

An `Accessibility` relation stores, for each of its agents, links between nodes. Only some links
need to be stored: two nodes are indistinguishable for an agent when a chain of the agent's links
joins them, in whichever direction.

Links can be cut. A cut link stays stored, and only the queries that ask for it leave it out.
-/
namespace EpistemicPlanning

/-- The links of each agent over some nodes, and which of them are cut. -/
structure Accessibility (kind : HandleKind) where
  nodes : SortedSet (Handle kind)
  links : SortedMap Agent (SortedSet (Link kind))
  cuts : SortedMap Agent (SortedSet (Link kind))
  deriving DecidableEq

namespace Accessibility

variable {kind : HandleKind}

instance : Inhabited (Accessibility kind) := ⟨⟨∅, ∅, ∅⟩⟩

/-! ### Agents and nodes -/

/-- The agents that have links, in order. -/
def agents (r : Accessibility kind) : SortedSet Agent := r.links.keys

/-- Whether an agent has links. -/
def hasAgent (r : Accessibility kind) (a : Agent) : Bool := r.links.contains a

/-- The relation with an agent added, who tells every two of its nodes apart. -/
def addAgent (r : Accessibility kind) (a : Agent) : Accessibility kind :=
  { r with
    links := r.links.upsert a fun ls =>
      SortedSet.ofList (r.nodes.toList.map Link.loop) ∪ ls.getD ∅ }

/-- The relation with a node added, which every agent links to itself. -/
def addNode (r : Accessibility kind) (n : Handle kind) : Accessibility kind :=
  { r with
    nodes := r.nodes.insert n
    links := r.links.mapValues fun _ ls => ls.insert (.loop n) }

/-- The relation in which the given agents tell every two of the given nodes apart. -/
def discrete (agents : List Agent) (nodes : List (Handle kind)) : Accessibility kind :=
  agents.foldl addAgent ⟨SortedSet.ofList nodes, ∅, ∅⟩

/-- The relation with the same agents over other nodes, all of which they tell apart. -/
def copyEmpty {other : HandleKind} (r : Accessibility kind) (nodes : List (Handle other)) :
    Accessibility other :=
  discrete r.agents.toList nodes

/-! ### Links -/

/-- The links of an agent, or the failure to find the agent. -/
def linksOf (r : Accessibility kind) (a : Agent) : Except ModelError (SortedSet (Link kind)) :=
  match r.links.find? a with
  | some ls => .ok ls
  | none => .error (.agentNotFound a)

/-- Whether an agent has the link between two nodes. -/
def containsLink (r : Accessibility kind) (a : Agent) (m n : Handle kind) :
    Except ModelError Bool :=
  (r.linksOf a).map fun ls => ls.contains (.of m n)

/-- The relation with both nodes added, and a link between them for an agent of the relation. -/
def link (r : Accessibility kind) (a : Agent) (m n : Handle kind) : Accessibility kind :=
  let r := (r.addNode m).addNode n
  { r with links := r.links.modify a fun ls => ls.insert (.of m n) }

/-- Adds a link for an agent, who has to be in the relation. -/
def addLink (r : Accessibility kind) (a : Agent) (m n : Handle kind) :
    Except ModelError (Accessibility kind) :=
  (r.linksOf a).map fun _ => r.link a m n

/-- Removes a link of an agent, and says whether it was there. -/
def removeLink (r : Accessibility kind) (a : Agent) (m n : Handle kind) :
    Except ModelError (Bool × Accessibility kind) :=
  (r.linksOf a).map fun ls =>
    (ls.contains (.of m n), { r with links := r.links.modify a fun ls => ls.erase (.of m n) })

/-! ### Cuts -/

/-- Cuts a link of an agent, stored or not. -/
def cutLink (r : Accessibility kind) (a : Agent) (m n : Handle kind) :
    Except ModelError (Accessibility kind) :=
  (r.linksOf a).map fun _ =>
    { r with cuts := r.cuts.upsert a fun cs => (cs.getD ∅).insert (.of m n) }

/-- The links between two different nodes that touch a node of `dead`. -/
def touching (dead : SortedSet (Handle kind)) (ls : SortedSet (Link kind)) :
    SortedSet (Link kind) :=
  ls.filter fun l => !l.isLoop && (dead.contains l.low || dead.contains l.high)

/-- Cuts every link that touches a node of `dead`, other than links from a node to itself. -/
def cutTouching (r : Accessibility kind) (dead : SortedSet (Handle kind)) : Accessibility kind :=
  { r with
    cuts := r.links.entries.foldl
      (fun cuts (a, ls) =>
        let cut := touching dead ls
        if cut.isEmpty then cuts else cuts.upsert a fun cs => cut ∪ cs.getD ∅)
      r.cuts }

/-- The relation without cuts. -/
def clearCuts (r : Accessibility kind) : Accessibility kind := { r with cuts := ∅ }

/-- The links of an agent that are cut. -/
def cutsOf (r : Accessibility kind) (a : Agent) : SortedSet (Link kind) :=
  (r.cuts.find? a).getD ∅

/-- The number of cut links of an agent. -/
def cutCount (r : Accessibility kind) (a : Agent) : Nat := (r.cutsOf a).size

/-! ### Indistinguishability -/

/-- Which links a query walks. -/
inductive Traversal where
  | full
  | respectCuts
  deriving DecidableEq, Repr

/-- The links between different nodes that a query walks. -/
def walked (r : Accessibility kind) (a : Agent) (t : Traversal) (ls : SortedSet (Link kind)) :
    List (Link kind) :=
  ls.toList.filter fun l =>
    !l.isLoop &&
      match t with
      | .full => true
      | .respectCuts => !(r.cutsOf a).contains l

/-- The classes of nodes that the walked links of an agent join. -/
def classesOf (r : Accessibility kind) (a : Agent) (t : Traversal) :
    List (SortedSet (Handle kind)) :=
  classes (r.walked a t ((r.links.find? a).getD ∅))

/-- The nodes that a chain of walked links of an agent joins to `n`, and `n` itself. -/
def reach (r : Accessibility kind) (a : Agent) (n : Handle kind) (t : Traversal) :
    Except ModelError (SortedSet (Handle kind)) :=
  (r.linksOf a).map fun ls => joinedTo (r.walked a t ls) n

/-- The nodes that an agent cannot tell apart from `n`. -/
def accessible (r : Accessibility kind) (a : Agent) (n : Handle kind) :
    Except ModelError (SortedSet (Handle kind)) :=
  r.reach a n .full

/-- The nodes that an agent cannot tell apart from `n` once cut links are left out. -/
def accessibleUncut (r : Accessibility kind) (a : Agent) (n : Handle kind) :
    Except ModelError (SortedSet (Handle kind)) :=
  r.reach a n .respectCuts

/-- Whether an agent cannot tell two nodes apart. -/
def isRelated (r : Accessibility kind) (a : Agent) (m n : Handle kind) :
    Except ModelError Bool :=
  (r.accessible a m).map fun ns => ns.contains n

end Accessibility

end EpistemicPlanning
