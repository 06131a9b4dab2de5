import ParLoop.Optimize.Pass

/-!
# The optimizer

The optimizer goes over the loop body and then over each procedure, in the order of their names,
with rounds of both passes until a round changes nothing. It counts what it replaces. When the flow
graph of a body cannot be built, or a flow problem takes too many visits, it stops, and what it has
simplified so far stays simplified.
-/

namespace ParLoop

namespace Optimizer

/-- What was done to a program. -/
structure Tally where
  /-- The passes that changed something, in the order in which they were made. -/
  passes : List Pass := []
  /-- The number of instructions replaced. -/
  replaced : Nat := 0
  /-- Every body was left at a round that changed nothing. -/
  converged : Bool := true
deriving DecidableEq

/-- Work on something that is simplified, with a tally of the changes. Both are kept when the work
stops with an error. -/
abbrev Work (α : Type) := EStateM AnalysisError (α × Tally)

/-- Makes a pass over a procedure and says whether it changed anything. -/
def step (cap : Nat) (p : Pass) : Work Procedure Bool := do
  let (f, t) ← get
  match p.apply f cap with
  | .error e => throw e
  | .ok (_, 0) => return false
  | .ok (f, count) =>
    set (f, { t with passes := t.passes ++ [p], replaced := t.replaced + count })
    return true

/-- Simplifies a procedure in rounds, at most as many as given. -/
def rounds (cap : Nat) : Nat → Work Procedure Unit
  | 0 => modify fun (f, t) => (f, { t with converged := false })
  | n + 1 => do
    let reused ← step cap .reuse
    let forwarded ← step cap .forward
    if reused || forwarded then rounds cap n

/-- Work on a procedure as work on the program that holds it. -/
def within (f : Procedure) (put : Program → Procedure → Program) (work : Work Procedure Unit) :
    Work Program Unit := fun (p, t) =>
  match work (f, t) with
  | .ok u (f, t) => .ok u (put p f, t)
  | .error e (f, t) => .error e (put p f, t)

/-- Simplifies the bodies of a program. -/
def work (cap maxRounds : Nat) : Work Program Unit := do
  let (p, _) ← get
  within p.root (fun p f => { p with body := f.body }) (rounds cap maxRounds)
  p.procedures.entries.forM fun (key, f) =>
    within f (fun p f => { p with procedures := p.procedures.insert key f }) (rounds cap maxRounds)

/-- How many rounds the optimizer makes over a body at most, unless told otherwise. -/
def defaultRounds : Nat := 16

end Optimizer

/-- The program with its bodies simplified, and what was done. -/
def Program.optimize (p : Program) (maxRounds cap : Nat) :
    Except AnalysisError (Program × Optimizer.Tally) :=
  match Optimizer.work cap maxRounds (p, {}) with
  | .ok _ s => .ok s
  | .error e _ => .error e

end ParLoop
