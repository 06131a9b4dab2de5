import ParLoop.Expr.Order

/-!
# Instructions

A loop body or procedure body is a flat list of instructions. `Instr.expressions` lists what an
instruction evaluates; for an assignment to an element this includes the element itself, whose
indices are evaluated.
-/

namespace ParLoop

/-- An instruction of a body. -/
inductive Instr where
  /-- Stores a value in a variable or in an array element. -/
  | assign (target value : Expr)
  | declare (name : String)
  | label (name : String)
  | jump (target : String)
  /-- Jumps if the condition holds, goes on otherwise. -/
  | branch (condition : Expr) (target : String)
  /-- Calls a procedure for its effects. -/
  | call (procedure : String) (arguments : List Expr)
deriving DecidableEq

namespace Instr

/-- The variable that an instruction declares or assigns. -/
def defined? : Instr → Option String
  | .declare x => some x
  | .assign (.var x) _ => some x
  | _ => none

/-- The array of whose elements an instruction writes one. -/
def writtenArray? : Instr → Option String
  | .assign (.access a _) _ => some a
  | _ => none

/-- The expressions that an instruction evaluates, in evaluation order. -/
def expressions : Instr → List Expr
  | .assign (.access a is) value => [.access a is, value]
  | .assign _ value => [value]
  | .branch condition _ => [condition]
  | .call _ arguments => arguments
  | .declare _ | .label _ | .jump _ => []

/-- Whether an instruction calls a procedure. -/
def hasCall : Instr → Bool
  | .call .. => true
  | i => i.expressions.any Expr.hasCall

/-- The procedures that an instruction calls. -/
def callees (i : Instr) : List String :=
  (match i with
    | .call p _ => [p]
    | _ => []) ++ i.expressions.flatMap Expr.callees

/-- The instruction with the variables it reads replaced. An assigned variable is not read; the
indices of an assigned element are. -/
def substitute (f : String → Option Expr) : Instr → Instr
  | .assign (.access a is) value => .assign ((Expr.access a is).substitute f) (value.substitute f)
  | .assign target value => .assign target (value.substitute f)
  | .branch condition target => .branch (condition.substitute f) target
  | .call p arguments => .call p (arguments.map (Expr.substitute f))
  | i => i

/-- An instruction as it stands in a listing. -/
def text : Instr → String
  | .assign target value => target.text ++ " = " ++ value.text ++ ";"
  | .declare x => "var " ++ x ++ ";"
  | .label l => l ++ ":"
  | .jump l => "goto " ++ l ++ ";"
  | .branch c l => "if " ++ c.text ++ " goto " ++ l ++ ";"
  | .call p arguments => "call " ++ (Expr.call p arguments).text ++ ";"

end Instr

end ParLoop
