import ParLoop.Optimize.Run
import ParLoop.Report.Basic
import ParLoop.Verify.Loop

/-!
# The analysis of a loop

The program is optimized, if this is asked for, and its loop is then checked. A loop that cannot be
analysed is reported as one that must not be parallelized.
-/

namespace ParLoop

/-- How a loop is to be analysed. -/
structure Config where
  /-- The program is optimized before the check. -/
  optimize : Bool := true
  /-- The check goes through the called procedures. -/
  interprocedural : Bool := true
  /-- How many rounds the optimizer may make over a body. -/
  maxRounds : Nat := Optimizer.defaultRounds
  /-- How many flows a solver may visit. -/
  cap : Nat := Flow.defaultCap
deriving DecidableEq

namespace Program

/-- The program as it is to be checked, and what the optimizer did. -/
def optimized (p : Program) (c : Config) : Except AnalysisError (Program × Optimizer.Tally) :=
  if c.optimize then p.optimize c.maxRounds c.cap else .ok (p, {})

/-- The warning of an optimizer that ran out of rounds. -/
def unfinished (c : Config) : Diagnostic where
  severity := .warning
  message := "optimizer stopped after " ++ toString c.maxRounds ++
    " rounds without reaching a fixed point"

/-- The analysis of a loop. -/
def analyze (p : Program) (c : Config) : Report :=
  match p.optimized c with
  | .error e => .ofOutcome p.counter (.error e)
  | .ok (q, tally) =>
    let report := (Report.ofOutcome p.counter
      (Verify.verdict q c.interprocedural c.cap)).withReplaced tally.replaced
    if tally.converged then report else report.withDiagnostic (unfinished c)

end Program

end ParLoop
