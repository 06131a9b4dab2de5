import ParLoop.AliasGroup
import ParLoop.Verify.Arrays
import ParLoop.Verify.Writes

/-!
# The check of a loop

The flow graph is built, writes to shared variables are looked for, and then the accesses to arrays
are compared.
-/

namespace ParLoop.Verify

/-- The check of the arrays of a program over its flow graph. -/
def arraysOf (p : Program) (g : FlowGraph) (cap : Nat) :
    Except AnalysisError (Option Rejection) := do
  let facts ← (Flow.dependence p.counter).solve g cap
  let storages ← (Flow.aliases (AliasGroup.seeds (AliasGroup.ofProgram p))).solve g cap
  checkArrays g facts storages

/-- Whether the iterations of a loop are independent of each other. -/
def verdict (p : Program) (interprocedural : Bool) (cap : Nat) :
    Except AnalysisError Verdict := do
  let (g, _) ← FlowGraph.ofProgram p interprocedural
  match ← checkWrites p g cap with
  | some r => return .rejected r
  | none =>
    match ← arraysOf p g cap with
    | some r => return .rejected r
    | none => return .parallelizable

end ParLoop.Verify
