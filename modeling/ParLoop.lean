import ParLoop.Flow.Names
import ParLoop.Main
import ParLoop.Proofs.AliasGroup.Components
import ParLoop.Proofs.AliasGroup.OneToOne
import ParLoop.Proofs.AliasGroup.Partition
import ParLoop.Proofs.Descriptor.Merge
import ParLoop.Proofs.Descriptor.Values
import ParLoop.Proofs.Descriptor.Zero
import ParLoop.Proofs.Expr.OneToOne
import ParLoop.Proofs.Flow.AddZero
import ParLoop.Proofs.Flow.Converge
import ParLoop.Proofs.Flow.Entering
import ParLoop.Proofs.Flow.Justified
import ParLoop.Proofs.Flow.OneToOne
import ParLoop.Proofs.Flow.Paths
import ParLoop.Proofs.Flow.Reaching
import ParLoop.Proofs.Flow.Renamed
import ParLoop.Proofs.FlowGraph.ControlFlow
import ParLoop.Proofs.FlowGraph.OneToOne
import ParLoop.Proofs.FlowGraph.Stitched
import ParLoop.Proofs.Iteration.Range
import ParLoop.Proofs.Listing.Accepted
import ParLoop.Proofs.Listing.Layout
import ParLoop.Proofs.Listing.Optimized
import ParLoop.Proofs.Listing.Tiles
import ParLoop.Proofs.Optimize.Converge
import ParLoop.Proofs.Optimize.Forward
import ParLoop.Proofs.Optimize.Idempotent
import ParLoop.Proofs.Optimize.OneToOne
import ParLoop.Proofs.Verify.Callees
import ParLoop.Proofs.Verify.Copies
import ParLoop.Proofs.Verify.Independent
import ParLoop.Proofs.Verify.OneToOne
import ParLoop.Proofs.Verify.SharedWrites
import ParLoop.Proofs.Verify.Storages
import ParLoop.Proofs.Verify.Swap
import ParLoop.Session
