import ContractIR.Assembly
import ContractIR.Context.Attribute
import ContractIR.Context.Basic
import ContractIR.Context.Create
import ContractIR.Context.Edit
import ContractIR.Context.Links
import ContractIR.Context.Member
import ContractIR.Context.Name
import ContractIR.Context.Placement
import ContractIR.Diagnostic
import ContractIR.Event
import ContractIR.Flow.Graph
import ContractIR.Flow.Liveness
import ContractIR.Handle
import ContractIR.Instruction.Basic
import ContractIR.Instruction.Form
import ContractIR.Kind
import ContractIR.Opcode.Basic
import ContractIR.Opcode.Shape
import ContractIR.Operation
import ContractIR.Optimize.Copy
import ContractIR.Optimize.DeadCode
import ContractIR.Optimize.Pass
import ContractIR.Optimize.Statistics
import ContractIR.Report
import ContractIR.Sequence
import ContractIR.SymbolTable
import ContractIR.Text.Json
import ContractIR.Text.Printable
import ContractIR.Text.Quoted
import ContractIR.Value
import ContractIR.Proofs.Links
import ContractIR.Proofs.Effect
import ContractIR.Proofs.Belonging
import ContractIR.Proofs.Evolution
import ContractIR.Proofs.Membership
import ContractIR.Proofs.SymbolTable
import ContractIR.Proofs.Uniquing
import ContractIR.Proofs.Scopes
import ContractIR.Proofs.Chains
import ContractIR.Proofs.Bodies
import ContractIR.Proofs.Shapes
import ContractIR.Proofs.Forms
import ContractIR.Proofs.References
import ContractIR.Proofs.Texts
import ContractIR.Proofs.Nesting
import ContractIR.Proofs.Flow.Nodes
import ContractIR.Proofs.Flow.Edges
import ContractIR.Proofs.Printing
import ContractIR.Proofs.Foreign.Checks
import ContractIR.Proofs.Foreign.Handles
import ContractIR.Proofs.Flow.Fixpoint
import ContractIR.Proofs.Semantics.Code
import ContractIR.Proofs.Semantics.Copies
import ContractIR.Proofs.Cursors
import ContractIR.Proofs.Propagation
import ContractIR.Proofs.Flow.LiveSets
import ContractIR.Proofs.Flow.LivePaths
import ContractIR.Proofs.Flow.Convergence
import ContractIR.Proofs.Flow.Reports
import ContractIR.Proofs.Flow.Partition
import ContractIR.Proofs.Flow.EdgeMaps
import ContractIR.Proofs.Semantics.DeadCode
import ContractIR.Proofs.Semantics.Erasure
import ContractIR.Proofs.Semantics.Optimizer
import ContractIR.Proofs.Semantics.Paths
import ContractIR.Proofs.Trimming.Steps
import ContractIR.Proofs.Trimming.Stages
import ContractIR.Proofs.Trimming.Contracts
import ContractIR.Proofs.Trimming.Removal
import ContractIR.Proofs.Trimming.Regions
import ContractIR.Proofs.Trimming.Commutation
import ContractIR.Proofs.Reinsertion
import ContractIR.Proofs.Creation
import ContractIR.Proofs.Transfers
import ContractIR.Proofs.Moves
import ContractIR.Proofs.Failures
import ContractIR.Proofs.Constants
