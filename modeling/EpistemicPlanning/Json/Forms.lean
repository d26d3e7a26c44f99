import EpistemicPlanning.Json.Record
import EpistemicPlanning.Planning.Deepening
import EpistemicPlanning.Policy.Walk

/-!
# JSON forms

How the library's own types are written as JSON, and read back. Agents are bare strings and
handles bare numbers; a cost is an object whose `kind` tells which one it is; other types are
records.
-/
namespace EpistemicPlanning

open Json (Value)

/-! ### Names and handles -/

namespace Agent

def toJson (a : Agent) : Value := .ofText a.name

def ofJson? (v : Value) : Option Agent := v.text?.map Agent.mk

end Agent

namespace Handle

variable {kind : HandleKind}

def toJson (h : Handle kind) : Value := .ofNat h.index

def ofJson? (v : Value) : Option (Handle kind) := v.nat32?.map Handle.mk

end Handle

namespace Predicate

def toJson (p : Predicate) : Value :=
  .record [("id", p.id.toJson), ("name", .ofText p.atom.name),
    ("arguments", .ofList .ofText p.atom.arguments)]

def ofJson? (v : Value) : Option Predicate := do
  match ← v.fields? ["id", "name", "arguments"] with
  | [some id, some name, some arguments] =>
    return ⟨← Handle.ofJson? id, ← name.text?, ← arguments.list? Value.text?⟩
  | _ => none

end Predicate

namespace Valuation

def toJson (v : Valuation) : Value :=
  .record [("words", .ofList (fun w => .ofNat w.toNat) v.words.toList)]

def ofJson? (v : Value) : Option Valuation := do
  match ← v.fields? ["words"] with
  | [some words] => return ⟨((← words.list? Value.nat64?).map Nat.toUInt64).toArray⟩
  | _ => none

end Valuation

/-! ### Costs -/

namespace Cost

def toJson : Cost → Value
  | undefined => .record [("kind", .ofText "undefined")]
  | finite value provisional =>
    .record [("kind", .ofText "finite"), ("value", .ofNat value.toNat),
      ("range", .bool provisional)]
  | infinity => .record [("kind", .ofText "infinity")]

/-- The number of levels of containers that a cost may be spelled with. -/
def jsonDepth : Nat := 127

/-- A finite cost, from a record without its kind. -/
def finiteOfJson? (v : Value) : Option Cost := do
  match ← v.fields? ["value", "range"] with
  | [some value, some range] => return .finite (← value.nat32?).toUInt32 (← range.bool?)
  | _ => none

/-- A cost is an object with its kind among the fields, or an array that starts with its kind. All
of it has to be storable, fields that are passed over included. -/
def ofJson? (v : Value) : Option Cost :=
  if v.storable jsonDepth then
    match v with
    | .object entries => do
      match ← (← Json.field? entries "kind").bind Value.text? with
      | "undefined" => return .undefined
      | "infinity" => return .infinity
      | "finite" => finiteOfJson? v
      | _ => none
    | .array (kind :: rest) =>
      match kind.text?, rest with
      | some "undefined", [] => some .undefined
      | some "infinity", [] => some .infinity
      | some "finite", rest => finiteOfJson? (.array rest)
      | _, _ => none
    | _ => none
  else none

end Cost

/-! ### Configuration -/

namespace PlannerConfig

def toJson (c : PlannerConfig) : Value :=
  .record [("max_depth", .ofNat c.maxDepth), ("max_iterations", .ofNat c.maxIterations),
    ("max_nodes", .ofNat c.maxNodes)]

/-- A missing field has its default. -/
def ofJson? (v : Value) : Option PlannerConfig := do
  let default : PlannerConfig := {}
  match ← v.fields? ["max_depth", "max_iterations", "max_nodes"] with
  | [depth, iterations, nodes] =>
    let bound (given : Option Value) (missing : Nat) : Option Nat :=
      given.elim (some missing) Value.nat64?
    return ⟨← bound depth default.maxDepth, ← bound iterations default.maxIterations,
      ← bound nodes default.maxNodes⟩
  | _ => none

/-- The configuration that a text spells, with positive bounds. -/
def ofText (text : String) : Except ValidationError PlannerConfig :=
  match (Value.parse text).bind ofJson? with
  | some c => c.checked
  | none => .error .unreadableConfig

/-- The configuration that the bytes of a file spell, with positive bounds; there are none when
there is no such file. -/
def ofFile (bytes : Option ByteArray) : Except ValidationError PlannerConfig :=
  match bytes.bind String.fromUTF8? with
  | some text => ofText text
  | none => .error .unreadableConfig

end PlannerConfig

namespace ExecutorConfig

def toJson (c : ExecutorConfig) : Value :=
  .record [("seed", .ofNat c.seed.toNat), ("max_steps", .ofNat c.maxSteps)]

/-- A missing field has its default. -/
def ofJson? (v : Value) : Option ExecutorConfig := do
  let default : ExecutorConfig := {}
  match ← v.fields? ["seed", "max_steps"] with
  | [seed, steps] =>
    return ⟨← seed.elim (some default.seed) fun v => v.nat64?.map Nat.toUInt64,
      ← steps.elim (some default.maxSteps) Value.nat64?⟩
  | _ => none

end ExecutorConfig

/-! ### Results -/

namespace PlanStats

def toJson (s : PlanStats) : Value :=
  .record [("iterations", .ofNat s.iterations),
    ("goal_depth", s.goalDepth.elim .null .ofNat), ("cutoff_depth", .ofNat s.cutoffDepth),
    ("nodes", .ofNat s.nodes), ("worlds", .ofNat s.worlds),
    ("pruned_edges", .ofNat s.prunedEdges), ("resolved_events", .ofNat s.resolvedEvents)]

/-- A missing goal depth stands for none. -/
def ofJson? (v : Value) : Option PlanStats := do
  match ← v.fields? ["iterations", "goal_depth", "cutoff_depth", "nodes", "worlds",
      "pruned_edges", "resolved_events"] with
  | [some iterations, goalDepth, some cutoffDepth, some nodes, some worlds, some prunedEdges,
      some resolvedEvents] =>
    return ⟨← iterations.nat64?, ← (goalDepth.getD .null).nullable? Value.nat64?,
      ← cutoffDepth.nat64?, ← nodes.nat64?, ← worlds.nat64?, ← prunedEdges.nat64?,
      ← resolvedEvents.nat64?⟩
  | _ => none

end PlanStats

namespace ExecutionReport

def toJson (r : ExecutionReport) : Value :=
  .record [("actions", .ofList .ofText r.actions), ("goal_reached", .bool r.goalReached),
    ("steps", .ofNat r.steps), ("final_worlds", .ofList Handle.toJson r.finalWorlds)]

def ofJson? (v : Value) : Option ExecutionReport := do
  match ← v.fields? ["actions", "goal_reached", "steps", "final_worlds"] with
  | [some actions, some goalReached, some steps, some finalWorlds] =>
    return ⟨← actions.list? Value.text?, ← goalReached.bool?, ← steps.nat64?,
      ← finalWorlds.list? Handle.ofJson?⟩
  | _ => none

end ExecutionReport

namespace PlannerPhase

/-- The name of a phase. -/
def name : PlannerPhase → String
  | expanding => "expanding"
  | costingPending => "costing_pending"
  | pruned => "pruned"

def toJson (p : PlannerPhase) : Value := .ofText p.name

/-- The phase with a given name. -/
def ofName? (s : String) : Option PlannerPhase :=
  [expanding, costingPending, pruned].find? fun p => p.name = s

/-- A phase is its name, or an object that has nothing under its name. -/
def ofJson? : Value → Option PlannerPhase
  | .string s => s.bind ofName?
  | .object [(key, .null)] => key.bind ofName?
  | _ => none

end PlannerPhase

end EpistemicPlanning
