import ProtectedRegions.Lowering.Build
import ProtectedRegions.Proofs.BitSet
import ProtectedRegions.Proofs.Body.Admission
import ProtectedRegions.Proofs.Body.Agreement
import ProtectedRegions.Proofs.Body.Document
import ProtectedRegions.Proofs.Body.Drafts
import ProtectedRegions.Proofs.Body.Forgetting
import ProtectedRegions.Proofs.Body.Lineage
import ProtectedRegions.Proofs.Body.Methods
import ProtectedRegions.Proofs.Body.Nearest
import ProtectedRegions.Proofs.Body.Search
import ProtectedRegions.Proofs.Body.Traversal
import ProtectedRegions.Proofs.Body.Tree
import ProtectedRegions.Proofs.Code.Assembling
import ProtectedRegions.Proofs.Code.Cover
import ProtectedRegions.Proofs.Code.Formed
import ProtectedRegions.Proofs.Code.Guards
import ProtectedRegions.Proofs.Code.Items
import ProtectedRegions.Proofs.Code.Linking
import ProtectedRegions.Proofs.Code.Neighbours
import ProtectedRegions.Proofs.Code.Patching
import ProtectedRegions.Proofs.Code.Tokens
import ProtectedRegions.Proofs.Digraph.Discovery
import ProtectedRegions.Proofs.Digraph.Preorder
import ProtectedRegions.Proofs.Digraph.Session
import ProtectedRegions.Proofs.Digraph.Walk
import ProtectedRegions.Proofs.Flow.Agreement
import ProtectedRegions.Proofs.Flow.Ancestry
import ProtectedRegions.Proofs.Flow.Answers
import ProtectedRegions.Proofs.Flow.Containment
import ProtectedRegions.Proofs.Flow.Entered
import ProtectedRegions.Proofs.Flow.Execution
import ProtectedRegions.Proofs.Flow.Exits
import ProtectedRegions.Proofs.Flow.Fixpoint
import ProtectedRegions.Proofs.Flow.Foreign
import ProtectedRegions.Proofs.Flow.Forgetting
import ProtectedRegions.Proofs.Flow.Handlers
import ProtectedRegions.Proofs.Flow.Live
import ProtectedRegions.Proofs.Flow.Marking
import ProtectedRegions.Proofs.Flow.Meeting
import ProtectedRegions.Proofs.Flow.Nesting
import ProtectedRegions.Proofs.Flow.Outward
import ProtectedRegions.Proofs.Flow.Required
import ProtectedRegions.Proofs.Flow.Routes
import ProtectedRegions.Proofs.Flow.Rules
import ProtectedRegions.Proofs.Flow.Search
import ProtectedRegions.Proofs.Lookup
import ProtectedRegions.Proofs.Lowering.Abutting
import ProtectedRegions.Proofs.Lowering.Acceptance
import ProtectedRegions.Proofs.Lowering.Acting
import ProtectedRegions.Proofs.Lowering.Active
import ProtectedRegions.Proofs.Lowering.Arrivals
import ProtectedRegions.Proofs.Lowering.Assembly
import ProtectedRegions.Proofs.Lowering.Bounds
import ProtectedRegions.Proofs.Lowering.Built
import ProtectedRegions.Proofs.Lowering.CatchLocals
import ProtectedRegions.Proofs.Lowering.Chain
import ProtectedRegions.Proofs.Lowering.ClauseTable
import ProtectedRegions.Proofs.Lowering.Cleanups
import ProtectedRegions.Proofs.Lowering.Constructing
import ProtectedRegions.Proofs.Lowering.Construction
import ProtectedRegions.Proofs.Lowering.Course
import ProtectedRegions.Proofs.Lowering.Crossing
import ProtectedRegions.Proofs.Lowering.Decisions
import ProtectedRegions.Proofs.Lowering.Emission
import ProtectedRegions.Proofs.Lowering.Endings
import ProtectedRegions.Proofs.Lowering.Exits
import ProtectedRegions.Proofs.Lowering.Finally
import ProtectedRegions.Proofs.Lowering.Forest
import ProtectedRegions.Proofs.Lowering.Forgetting
import ProtectedRegions.Proofs.Lowering.Isolation
import ProtectedRegions.Proofs.Lowering.Labels
import ProtectedRegions.Proofs.Lowering.Laid
import ProtectedRegions.Proofs.Lowering.Landing
import ProtectedRegions.Proofs.Lowering.Leaves
import ProtectedRegions.Proofs.Lowering.Listing
import ProtectedRegions.Proofs.Lowering.Method
import ProtectedRegions.Proofs.Lowering.Payload
import ProtectedRegions.Proofs.Lowering.Performing
import ProtectedRegions.Proofs.Lowering.Pieces
import ProtectedRegions.Proofs.Lowering.Recorded
import ProtectedRegions.Proofs.Lowering.Required
import ProtectedRegions.Proofs.Lowering.Rethrows
import ProtectedRegions.Proofs.Lowering.Shown
import ProtectedRegions.Proofs.Lowering.Sound
import ProtectedRegions.Proofs.Lowering.Sources
import ProtectedRegions.Proofs.Lowering.Standing
import ProtectedRegions.Proofs.Lowering.Traces
import ProtectedRegions.Proofs.Lowering.Transfers
import ProtectedRegions.Proofs.Lowering.Unwinding
import ProtectedRegions.Proofs.Outcome
import ProtectedRegions.Proofs.Region.Blocks
import ProtectedRegions.Proofs.Region.Forest
import ProtectedRegions.Proofs.Region.Listing
import ProtectedRegions.Proofs.Region.Nested
import ProtectedRegions.Proofs.Region.Running
import ProtectedRegions.Proofs.Region.Table
import ProtectedRegions.Proofs.Region.Valid
import ProtectedRegions.Region.Clause
import ProtectedRegions.Region.Listing
