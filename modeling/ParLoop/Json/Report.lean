import ParLoop.Json.Program
import ParLoop.Report.Basic

/-!
# Reports as JSON
-/

namespace ParLoop

open Json

/-- The name of a kind of causes in JSON. -/
def ErrorKind.tag : ErrorKind → String
  | .unknownProcedure => "UnknownProcedure"
  | .unknownLabel => "UnknownLabel"
  | .duplicateLabel => "DuplicateLabel"
  | .emptyAccess => "EmptyAccessor"
  | .noVaryingIndex => "NoLoopDependentDimension"
  | .severalVaryingIndices => "AmbiguousLoopDependentDimension"
  | .unresolvedAlias => "UnresolvedAlias"
  | .notConverged => "NotConverged"

/-- The name of a check in JSON. -/
def Verifier.tag : Verifier → String
  | .writes => "WriteAccess"
  | .arrays => "ArrayAccess"

/-- The name of a severity in JSON. -/
def Severity.tag : Severity → String
  | .error => "Error"
  | .warning => "Warning"
  | .note => "Note"

/-- The JSON form of an access. -/
def Access.toJson (a : Access) : Json :=
  .obj [("node", .int a.node), ("expression", a.expression.toJson), ("is_write", .bool a.isWrite)]

/-- The JSON form of a reason. -/
def Reason.toJson : Reason → Json
  | .sharedWrites names =>
    tagged "SharedVariableWrite" (.obj [("names", .arr (names.map .str))])
  | .conflict target accesses =>
    tagged "ConflictingAccesses"
      (.obj [("target", target.toJson), ("accesses", .arr (accesses.map Access.toJson))])

/-- The JSON form of a verdict. -/
def Verdict.toJson : Verdict → Json
  | .parallelizable => .str "Parallelizable"
  | .rejected r =>
    tagged "Rejected" (.obj [("verifier", .str r.verifier.tag), ("reason", r.reason.toJson)])

/-- The JSON form of a cause. -/
def Failure.toJson (f : Failure) : Json :=
  .obj [("message", .str f.message), ("kind", .str f.kind.tag)]

/-- The JSON form of a span. -/
def Span.toJson (s : Span) : Json :=
  .obj [
    ("start_line", .int s.start.line),
    ("start_column", .int s.start.column),
    ("end_line", .int s.stop.line),
    ("end_column", .int s.stop.column)]

/-- The JSON form of a message. -/
def Diagnostic.toJson (d : Diagnostic) : Json :=
  .obj [
    ("severity", .str d.severity.tag),
    ("message", .str d.message),
    ("span", ofOption Span.toJson d.span),
    ("notes", .arr (d.notes.map .str))]

/-- The JSON form of a report. -/
def Report.toJson (r : Report) : Json :=
  .obj [
    ("induction_variable", .str r.counter),
    ("parallelizable", .bool r.parallelizable),
    ("verdict", ofOption Verdict.toJson r.verdict),
    ("error", ofOption Failure.toJson r.failure),
    ("optimizer_rewrites", .int r.replaced),
    ("diagnostics", .arr (r.diagnostics.map Diagnostic.toJson))]

end ParLoop
