import ParLoop.AnalysisError

/-!
# Verdicts

What the check of a loop can come to, and how it is said.
-/

namespace ParLoop

/-- A read or a write of an array element. -/
structure Access where
  /-- The node where it happens. -/
  node : Nat
  expression : Expr
  isWrite : Bool
deriving DecidableEq

/-- An access in words. -/
def Access.text (a : Access) : String :=
  (if a.isWrite then "write " else "read ") ++ a.expression.text ++ " at " ++ nodeName a.node

/-- The checks that a loop has to pass. -/
inductive Verifier where
  | writes
  | arrays
deriving DecidableEq

/-- The name of a check. -/
def Verifier.text : Verifier → String
  | .writes => "write-access verifier"
  | .arrays => "array-access verifier"

/-- Why the iterations of a loop may depend on each other. -/
inductive Reason where
  /-- Variables declared outside the loop are written in it. -/
  | sharedWrites (names : List String)
  /-- A storage that is written is accessed with different indices. -/
  | conflict (target : Expr) (accesses : List Access)
deriving DecidableEq

/-- A failed check. -/
structure Rejection where
  verifier : Verifier
  reason : Reason
deriving DecidableEq

/-- A failed check in words. -/
def Rejection.text (r : Rejection) : String :=
  r.verifier.text ++ ": " ++
    match r.reason with
    | .sharedWrites names => "shared variable(s) written: " ++ ", ".intercalate names
    | .conflict target accesses =>
      "alias group '" ++ target.text ++ "' is accessed with different indices" ++
        String.join (accesses.map fun a => "\n  " ++ a.text)

/-- What is found of a loop. -/
inductive Verdict where
  /-- The iterations may run in any order. -/
  | parallelizable
  | rejected (rejection : Rejection)
deriving DecidableEq

/-- Whether a verdict lets the iterations run in any order. -/
def Verdict.isParallelizable : Verdict → Bool
  | .parallelizable => true
  | .rejected _ => false

/-- A verdict in words. -/
def Verdict.text : Verdict → String
  | .parallelizable => "parallelizable"
  | .rejected r => "not parallelizable (" ++ r.text ++ ")"

end ParLoop
