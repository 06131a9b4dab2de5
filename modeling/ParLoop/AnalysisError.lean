import ParLoop.Expr.Order

/-!
# What makes a loop unsupported

The causes for which the analyses give up on a loop, and their wording.
-/

namespace ParLoop

/-- The name of a node of a flow graph. -/
def nodeName (k : Nat) : String := "n" ++ toString k

/-- Why a loop cannot be analysed. -/
inductive AnalysisError where
  /-- A call of a procedure that the program does not supply. -/
  | unknownProcedure (name : String)
  /-- A jump to a label that its body does not have. -/
  | unknownLabel (label procedure : String)
  /-- A label that stands twice in one body. -/
  | duplicateLabel (label procedure : String)
  /-- An access to an array element without an index. -/
  | emptyAccess (array : String)
  /-- An access of which no index varies with the iteration. -/
  | noVaryingIndex (access : Expr) (node : Nat)
  /-- An access of which several indices vary with the iteration. -/
  | severalVaryingIndices (array : String) (node : Nat)
  /-- A name that denotes no known storage where it is accessed. -/
  | unresolvedAlias (name : String) (node : Nat)
  /-- A flow problem not solved within the allowed number of visits. -/
  | notConverged (analysis : String) (cap : Nat)
deriving DecidableEq

/-- The kinds of causes. -/
inductive ErrorKind where
  | unknownProcedure
  | unknownLabel
  | duplicateLabel
  | emptyAccess
  | noVaryingIndex
  | severalVaryingIndices
  | unresolvedAlias
  | notConverged
deriving DecidableEq

/-- The kind of a cause. -/
def AnalysisError.kind : AnalysisError → ErrorKind
  | .unknownProcedure .. => .unknownProcedure
  | .unknownLabel .. => .unknownLabel
  | .duplicateLabel .. => .duplicateLabel
  | .emptyAccess .. => .emptyAccess
  | .noVaryingIndex .. => .noVaryingIndex
  | .severalVaryingIndices .. => .severalVaryingIndices
  | .unresolvedAlias .. => .unresolvedAlias
  | .notConverged .. => .notConverged

/-- The wording of a cause. -/
def AnalysisError.message : AnalysisError → String
  | .unknownProcedure f => "unknown procedure '" ++ f ++ "'"
  | .unknownLabel l p => "jump to unknown label '" ++ l ++ "' in '" ++ p ++ "'"
  | .duplicateLabel l p => "label '" ++ l ++ "' is defined twice in '" ++ p ++ "'"
  | .emptyAccess a => "array access '" ++ a ++ "' has no index"
  | .noVaryingIndex e k =>
    "no index of '" ++ e.text ++ "' depends on the loop at " ++ nodeName k
  | .severalVaryingIndices a k =>
    "several indices of '" ++ a ++ "' depend on the loop at " ++ nodeName k
  | .unresolvedAlias x k => "no alias known for '" ++ x ++ "' at " ++ nodeName k
  | .notConverged analysis cap =>
    analysis ++ " did not converge after " ++ toString cap ++ " iterations"

end ParLoop
