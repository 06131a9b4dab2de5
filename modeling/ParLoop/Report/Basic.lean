import ParLoop.Report.Diagnostic
import ParLoop.Verify.Verdict

/-!
# Reports

What is told about an analysed loop.
-/

namespace ParLoop

/-- A cause for which a loop was not analysed, as it is told. -/
structure Failure where
  message : String
  kind : ErrorKind
deriving DecidableEq

/-- How a cause is told. -/
def AnalysisError.failure (e : AnalysisError) : Failure := ⟨e.message, e.kind⟩

/-- What is told about a loop. -/
structure Report where
  counter : String
  parallelizable : Bool
  /-- What was found, if the loop could be analysed. -/
  verdict : Option Verdict
  /-- Why the loop could not be analysed. -/
  failure : Option Failure
  /-- The number of instructions that the optimizer replaced before. -/
  replaced : Nat
  diagnostics : List Diagnostic
deriving DecidableEq

namespace Report

/-- The report of a verdict on a loop, or of the reason why there is none. -/
def ofOutcome (counter : String) : Except AnalysisError Verdict → Report
  | .ok .parallelizable =>
    ⟨counter, true, some .parallelizable, none, 0,
      [{ severity := .note, message := "loop over '" ++ counter ++ "' carries no dependencies" }]⟩
  | .ok (.rejected r) =>
    ⟨counter, false, some (.rejected r), none, 0, [{ severity := .error, message := r.text }]⟩
  | .error e =>
    ⟨counter, false, none, some e.failure, 0,
      [{ severity := .error, message := "unsupported loop: " ++ e.message,
         notes := ["the loop must not be parallelized"] }]⟩

/-- The report with the number of replaced instructions. -/
def withReplaced (r : Report) (count : Nat) : Report := { r with replaced := count }

/-- The report with one more message. -/
def withDiagnostic (r : Report) (d : Diagnostic) : Report :=
  { r with diagnostics := r.diagnostics ++ [d] }

/-- What a report says of the loop. -/
def summary (r : Report) : String :=
  match r.verdict, r.failure with
  | some v, _ => v.text
  | none, some f => "unsupported (" ++ f.message ++ ")"
  | none, none => "not analyzed"

/-- A report in words. -/
def text (r : Report) : String :=
  "loop over '" ++ r.counter ++ "': " ++ r.summary ++ "\n" ++
    String.join (r.diagnostics.map fun d => d.text ++ "\n")

end Report

end ParLoop
