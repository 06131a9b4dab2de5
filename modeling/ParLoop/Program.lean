import ParLoop.Instr
import ParLoop.NameMap

/-!
# Loop programs

A `Program` is one counted loop with the procedures it may call and what is known about the symbols
declared outside of it.
-/

namespace ParLoop

/-- A procedure with a flat body. -/
structure Procedure where
  name : String
  parameters : List String
  body : List Instr
deriving DecidableEq

/-- The procedures called in a body. -/
def Procedure.callees (p : Procedure) : OrderedSet String := .ofList (p.body.flatMap Instr.callees)

/-- Who else can see a symbol. -/
inductive Visibility where
  | localVariable
  | parameter
  | privateMember
  | publicMember
deriving DecidableEq

/-- The type of the elements of an array, or of a scalar. -/
structure ElementType where
  name : String
  /-- Values of the type are copied on assignment. -/
  isValue : Bool
deriving DecidableEq

/-- The built-in types whose values are copied. -/
def ElementType.valueTypes : List String :=
  ["int", "long", "short", "byte", "char", "bool", "float", "double", "decimal"]

/-- The type of a given name. -/
def ElementType.named (name : String) : ElementType := ⟨name, valueTypes.contains name⟩

/-- The form of a place where a symbol may be bound to another storage. -/
inductive RebindingKind where
  | assignment
  | initializer
  | refArgument
deriving DecidableEq

/-- What a symbol is bound to. -/
inductive RebindingValue where
  | fresh
  | null
  /-- A reference read from somewhere else. -/
  | reference
deriving DecidableEq

/-- A place where a symbol may be bound to another storage. -/
structure Rebinding where
  kind : RebindingKind
  value : RebindingValue
deriving DecidableEq

/-- What is known about a symbol declared outside the loop. -/
structure Symbol where
  name : String
  visibility : Visibility
  element : ElementType
  /-- The number of dimensions, 0 for a scalar. -/
  rank : Nat
  rebindings : List Rebinding
deriving DecidableEq

/-- Whether a symbol is an array. -/
def Symbol.isArray (s : Symbol) : Bool := s.rank != 0

/-- A counted loop. -/
structure Program where
  /-- The induction variable. -/
  counter : String
  /-- The first value of the counter. -/
  lower : Option Expr
  /-- The first value past the last one. -/
  upper : Option Expr
  body : List Instr
  procedures : NameMap Procedure
  symbols : NameMap Symbol
deriving DecidableEq

/-- The name of the loop body where a procedure name is called for. -/
def loopName : String := "$loop"

namespace Program

/-- The loop body as a procedure without parameters. -/
def root (p : Program) : Procedure := ⟨loopName, [], p.body⟩

/-- A loop over a body, with nothing known about anything else. -/
def ofBody (counter : String) (body : List Instr) : Program :=
  ⟨counter, none, none, body, ∅, ∅⟩

/-- The program with given bounds. -/
def withBounds (p : Program) (lower upper : Expr) : Program :=
  { p with lower := some lower, upper := some upper }

/-- The program with one more procedure, which replaces one of the same name. -/
def withProcedure (p : Program) (f : Procedure) : Program :=
  { p with procedures := p.procedures.insert f.name f }

/-- The program with one more symbol, which replaces one of the same name. -/
def withSymbol (p : Program) (s : Symbol) : Program :=
  { p with symbols := p.symbols.insert s.name s }

end Program

end ParLoop
