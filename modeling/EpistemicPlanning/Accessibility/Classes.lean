import EpistemicPlanning.Accessibility.Link
import EpistemicPlanning.Ordered.Set

/-!
# Classes of joined nodes

Links that are walked in both directions, over any number of steps, gather the nodes into classes.
`classes` forms them link by link: a link between two classes makes one class of them. A node that
no link touches is a class of its own and is not listed.
-/
namespace EpistemicPlanning

variable {kind : HandleKind}

/-- The listed class of a node, or the node alone. -/
def classOf (cs : List (SortedSet (Handle kind))) (n : Handle kind) : SortedSet (Handle kind) :=
  (cs.find? fun c => c.contains n).getD (SortedSet.singleton n)

/-- The classes after one more link. -/
def joinClasses (cs : List (SortedSet (Handle kind))) (l : Link kind) :
    List (SortedSet (Handle kind)) :=
  let low := classOf cs l.low
  let high := classOf cs l.high
  if low.contains l.high then cs
  else (low ∪ high) :: cs.filter fun c => !c.contains l.low && !c.contains l.high

/-- The classes of nodes that a list of links joins. -/
def classes (links : List (Link kind)) : List (SortedSet (Handle kind)) :=
  links.foldl joinClasses []

/-- The nodes that a list of links joins to `n`, and `n` itself. -/
def joinedTo (links : List (Link kind)) (n : Handle kind) : SortedSet (Handle kind) :=
  classOf (classes links) n

end EpistemicPlanning
