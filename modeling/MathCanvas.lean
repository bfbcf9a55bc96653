import MathCanvas.Command.Session
import MathCanvas.Binding.Check
import MathCanvas.Document.Edit
import MathCanvas.Proofs.Binding.WellFormed
import MathCanvas.Proofs.Binding.Answers
import MathCanvas.Proofs.Scope.Lifetime
import MathCanvas.Proofs.Workspace.Resolution
import MathCanvas.Proofs.Workspace.Integrity
import MathCanvas.Proofs.Workspace.Outstanding
import MathCanvas.Proofs.Workspace.Exports
import MathCanvas.Proofs.Workspace.Status
import MathCanvas.Proofs.Document.Regions
import MathCanvas.Proofs.Document.Arrangement
import MathCanvas.Proofs.Document.Ties
import MathCanvas.Proofs.Scope.Fades
import MathCanvas.Proofs.Scope.Listeners
import MathCanvas.Proofs.Workspace.Attuned
import MathCanvas.Proofs.Workspace.Batches
import MathCanvas.Proofs.Workspace.Chronicle
import MathCanvas.Proofs.Document.Homing
import MathCanvas.Proofs.Workspace.Fates
import MathCanvas.Proofs.Workspace.Lifecycle
import MathCanvas.Proofs.Workspace.Outcomes
import MathCanvas.Proofs.Expr.Names
import MathCanvas.Proofs.Scope.Enrollment
import MathCanvas.Proofs.Workspace.Allotment
import MathCanvas.Proofs.Workspace.Ledger
import MathCanvas.Proofs.Document.Enlisted
import MathCanvas.Proofs.Document.Recalculation
import MathCanvas.Proofs.Workspace.OwnDefinitions
import MathCanvas.Proofs.Workspace.Links
import MathCanvas.Proofs.Command.Texts
import MathCanvas.Proofs.Command.Journal
import MathCanvas.Proofs.Binding.Changes
import MathCanvas.Proofs.Workspace.Deliveries
import MathCanvas.Proofs.Document.Evaluations
import MathCanvas.Proofs.Expr.Stages
import MathCanvas.Proofs.Expr.Stripping
import MathCanvas.Proofs.Workspace.Requests
import MathCanvas.Proofs.Workspace.Moves
import MathCanvas.Proofs.Workspace.Freshness
import MathCanvas.Proofs.Command.Dependence
import MathCanvas.Proofs.Expr.Grammar
import MathCanvas.Proofs.Document.Undisturbed
import MathCanvas.Proofs.Geometry.ReadingOrder
