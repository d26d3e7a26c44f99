import EpistemicPlanning.Agent
import EpistemicPlanning.Digest.Fingerprint
import EpistemicPlanning.Handle

/-!
# What can go wrong

Each layer has its own causes of failure: building a model, task or configuration
(`ValidationError`), looking something up in one (`ModelError`), and searching (`PlanningError`).
`PlanError` is any of the three. Causes are data; their wording is in the `message` functions.

That an action does not apply is not an error: the product update then has no result.
-/
namespace EpistemicPlanning

/-- Why nodes, designated nodes and a relation do not form a model. -/
inductive ShapeDefect (kind : HandleKind) where
  /-- A node is listed twice. -/
  | duplicateNode
  /-- A designated node is not listed. -/
  | strayDesignated (node : Handle kind)
  /-- The relation has a node that is not listed. -/
  | strayRelated (node : Handle kind)
  deriving DecidableEq, Repr

/-- The wording of a defect of shape. -/
def ShapeDefect.message {kind : HandleKind} : ShapeDefect kind → String
  | .duplicateNode => "possible nodes contain duplicates"
  | .strayDesignated n => "designated " ++ n.diagnostic ++ " is not a possible node"
  | .strayRelated n => "relation mentions " ++ n.diagnostic ++ " which is not a possible node"

/-- What is wrong with a state. -/
inductive StateDefect where
  | shape (defect : ShapeDefect .world)
  /-- A world of the initial state is not in the arena. -/
  | notInArena (world : WorldId)
  /-- The table of predicates has given out all its handles. -/
  | tableFull
  deriving DecidableEq, Repr

/-- The wording of a defect of a state. -/
def StateDefect.message : StateDefect → String
  | .shape d => d.message
  | .notInArena w => "world " ++ w.text ++ " is not in the arena"
  | .tableFull => "predicate table is full"

/-- What is wrong with an action. -/
inductive ActionDefect where
  | noEvents
  | noDesignated
  /-- A declared pair of events names an event that was never added. -/
  | unknownEvent (first second : EventId)
  | shape (defect : ShapeDefect .event)
  /-- The initial state has no relation for the agent who performs the action. -/
  | ownerUnrelated (owner : Agent)
  deriving DecidableEq, Repr

/-- The wording of a defect of an action. -/
def ActionDefect.message : ActionDefect → String
  | .noEvents => "action has no events"
  | .noDesignated => "action has no designated events"
  | .unknownEvent e f => "edge (" ++ e.text ++ ", " ++ f.text ++ ") mentions an unknown event"
  | .shape d => d.message
  | .ownerUnrelated a =>
    "owner " ++ a.name ++ " has no accessibility relation in the initial state"

/-- The bounds on a search. -/
inductive SearchBound where
  | maxDepth
  | maxIterations
  | maxNodes
  deriving DecidableEq, Repr

/-- The name of a bound in a configuration. -/
def SearchBound.text : SearchBound → String
  | .maxDepth => "max_depth"
  | .maxIterations => "max_iterations"
  | .maxNodes => "max_nodes"

/-- Why a model, task, configuration or executor was refused. -/
inductive ValidationError where
  | malformedState (defect : StateDefect)
  | malformedAction (action : String) (defect : ActionDefect)
  | emptyAgentName
  | emptyPredicateName
  /-- A bound of the search is zero. -/
  | zeroBound (bound : SearchBound)
  /-- The text of a configuration could not be read. -/
  | unreadableConfig
  /-- A policy is to be run on another task than the one it was made for. -/
  | taskMismatch (expected actual : Fingerprint)
  deriving DecidableEq, Repr

/-- The wording of a refusal. -/
def ValidationError.message : ValidationError → String
  | .malformedState d => "Malformed state: " ++ d.message
  | .malformedAction name d => "Malformed action '" ++ name ++ "': " ++ d.message
  | .emptyAgentName => "Agent name cannot be empty"
  | .emptyPredicateName => "Predicate name cannot be empty"
  | .zeroBound b => "Invalid planner config: " ++ b.text ++ " must be > 0"
  | .unreadableConfig => "Failed to parse config"
  | .taskMismatch e a => "Policy was built for task " ++ e.text ++ ", got task " ++ a.text

/-- The agent itself, refused when its name is blank. -/
def Agent.checked (a : Agent) : Except ValidationError Agent :=
  if a.isBlank then .error .emptyAgentName else .ok a

/-- A lookup that found nothing. -/
inductive ModelError where
  | agentNotFound (agent : Agent)
  | actionNotFound (action : ActionId)
  | missingChild (node : NodeId) (action : ActionId)
  deriving DecidableEq, Repr

/-- The wording of a failed lookup. -/
def ModelError.message : ModelError → String
  | .agentNotFound a => "Agent not found: " ++ a.name
  | .actionNotFound a => "Action not found: " ++ toString a.index
  | .missingChild n a =>
    "Node " ++ toString n.index ++ " has no child for action " ++ toString a.index

/-- Why a task was given up as unsolvable. -/
inductive Unsolvable where
  | iterationsExhausted
  | provisionalWithoutFrontier
  | provisionalAtDepthBound
  | goalUnreachable
  deriving DecidableEq, Repr

/-- The wording of a reason to give up. -/
def Unsolvable.message : Unsolvable → String
  | .iterationsExhausted => "iteration bound exhausted"
  | .provisionalWithoutFrontier => "root costs provisional with an empty frontier"
  | .provisionalAtDepthBound => "depth bound reached with provisional root costs"
  | .goalUnreachable => "goal unreachable from every designated root world"

/-- A search that ended without a policy. -/
inductive PlanningError where
  | unsolvable (depth : Nat) (reason : Unsolvable)
  /-- The tree would outgrow the bound on its nodes. -/
  | tooManyNodes (max actual : Nat)
  /-- There are as many nodes as words of 32 bits, so that another would have no handle. -/
  | tooManyNodeIds (actual : Nat)
  deriving DecidableEq, Repr

/-- The wording of a search failure. -/
def PlanningError.message : PlanningError → String
  | .unsolvable depth reason =>
    "Unsolvable task at depth " ++ toString depth ++ ": " ++ reason.message
  | .tooManyNodes max actual =>
    "Search limit exceeded: nodes (max: " ++ toString max ++ ", actual: " ++ toString actual
      ++ ")"
  | .tooManyNodeIds actual =>
    "Search limit exceeded: node ids (max: " ++ toString (UInt32.size - 1) ++ ", actual: "
      ++ toString actual ++ ")"

/-- A failure of any layer. -/
inductive PlanError where
  | validation (cause : ValidationError)
  | model (cause : ModelError)
  | planning (cause : PlanningError)
  deriving DecidableEq, Repr

namespace PlanError

/-- The wording of a failure, with its layer. -/
def message : PlanError → String
  | validation e => "Validation error: " ++ e.message
  | model e => "Model error: " ++ e.message
  | planning e => "Planning error: " ++ e.message

/-- Whether something was refused when it was built. -/
def isValidation : PlanError → Bool
  | validation _ => true
  | _ => false

/-- Whether a lookup failed. -/
def isModel : PlanError → Bool
  | model _ => true
  | _ => false

/-- Whether the task was given up. -/
def isUnsolvable : PlanError → Bool
  | planning (.unsolvable _ _) => true
  | _ => false

/-- Whether a bound on resources was hit. -/
def isLimitExceeded : PlanError → Bool
  | planning (.tooManyNodes _ _) => true
  | planning (.tooManyNodeIds _) => true
  | _ => false

end PlanError

end EpistemicPlanning
