import EpistemicPlanning.Predicate.Table
import EpistemicPlanning.Valuation
import EpistemicPlanning.Digest.Blake3
import EpistemicPlanning.Cost
import EpistemicPlanning.Accessibility
import EpistemicPlanning.Formula.Truth
import EpistemicPlanning.Task.Description
import EpistemicPlanning.Memo
import EpistemicPlanning.Update.Product
import EpistemicPlanning.Json.Text
import EpistemicPlanning.Planning.Deepening
import EpistemicPlanning.Policy.Walk
import EpistemicPlanning.Json.Forms
import EpistemicPlanning.Proofs.Update.Product
import EpistemicPlanning.Proofs.Plan.Continuations
import EpistemicPlanning.Proofs.Plan.Completeness
import EpistemicPlanning.Proofs.Plan.FromScratch
import EpistemicPlanning.Proofs.Plan.Finality
import EpistemicPlanning.Proofs.Plan.Provenance
import EpistemicPlanning.Proofs.Policy.Moves
import EpistemicPlanning.Proofs.Policy.Execution
import EpistemicPlanning.Proofs.Policy.Designation
import EpistemicPlanning.Proofs.Plan.Limits
import EpistemicPlanning.Proofs.Text.Bytes
import EpistemicPlanning.Proofs.Task.Outline
import EpistemicPlanning.Proofs.Task.Reading
import EpistemicPlanning.Proofs.Task.Fingerprint
import EpistemicPlanning.Proofs.Plan.Failures
import EpistemicPlanning.Proofs.Plan.StaleMarks
import EpistemicPlanning.Proofs.Update.Sessions
import EpistemicPlanning.Proofs.Formula.Semantics
import EpistemicPlanning.Proofs.Perspective
import EpistemicPlanning.Proofs.Planning.Applicability
import EpistemicPlanning.Proofs.Accessibility.Gains
import EpistemicPlanning.Proofs.Update.Stepwise
import EpistemicPlanning.Proofs.Update.Atomicity
import EpistemicPlanning.Proofs.Formula.Knowledge
import EpistemicPlanning.Proofs.Accessibility.Search
import EpistemicPlanning.Proofs.Accessibility.Queries
import EpistemicPlanning.Proofs.Accessibility.Edits
import EpistemicPlanning.Proofs.Plan.Frontier
import EpistemicPlanning.Proofs.Policy.Rest
import EpistemicPlanning.Proofs.Task.Assembly
import EpistemicPlanning.Proofs.Plan.NodeLimit
import EpistemicPlanning.Proofs.Cost.Aggregation
import EpistemicPlanning.Proofs.Valuation
import EpistemicPlanning.Proofs.Predicate.Table
import EpistemicPlanning.Proofs.Predicate.Interning
import EpistemicPlanning.Proofs.Action.Declaration
import EpistemicPlanning.Proofs.Plan.Leaves
