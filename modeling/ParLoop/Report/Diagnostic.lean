import ParLoop.Span

/-!
# Messages about a loop
-/

namespace ParLoop

/-- How serious a message is. -/
inductive Severity where
  /-- The loop must not be parallelized. -/
  | error
  /-- The result may be too careful. -/
  | warning
  | note
deriving DecidableEq

/-- The label of a message. -/
def Severity.text : Severity → String
  | .error => "error"
  | .warning => "warning"
  | .note => "note"

/-- A message, possibly about a place in the text, with notes. -/
structure Diagnostic where
  severity : Severity
  message : String
  span : Option Span := none
  notes : List String := []
deriving DecidableEq

/-- A message with its notes below it. -/
def Diagnostic.text (d : Diagnostic) : String :=
  d.severity.text ++ ": " ++ d.message ++
    (match d.span with
      | some s => " at " ++ s.text
      | none => "") ++
    String.join (d.notes.map fun n => "\n  = " ++ n)

end ParLoop
