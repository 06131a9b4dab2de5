import ParLoop.Double.Text
import ParLoop.OrderedSet

/-!
# Expressions

Expressions of loop bodies. Every question about what an expression mentions is answered from
`Expr.subterms`, the list of all its parts in evaluation order (`subterms_eq`); `Expr.substitute`
replaces variables, and `Expr.text` writes an expression as it stands in a listing.
-/

namespace ParLoop

/-- Comparison operators. -/
inductive Comparison where
  | eq
  | ne
  | lt
  | le
  | gt
  | ge
deriving DecidableEq, Repr

/-- Binary operators. The analyses do not look into a `generic` operator. -/
inductive BinaryOp where
  | add
  | subtract
  | multiply
  | divide
  | modulo
  | generic (symbol : String)
  | compare (op : Comparison)
deriving DecidableEq, Repr

/-- An expression. -/
inductive Expr where
  /-- The value of a scalar, or the storage an array name denotes. -/
  | var (name : String)
  /-- An element of an array. -/
  | access (array : String) (indices : List Expr)
  | int (value : Int)
  | double (value : Double)
  | neg (operand : Expr)
  | binary (op : BinaryOp) (left right : Expr)
  | paren (inner : Expr)
  | cond (test whenTrue whenFalse : Expr)
  /-- The value of a procedure call. -/
  | call (procedure : String) (arguments : List Expr)

/-- The source form of a comparison. -/
def Comparison.symbol : Comparison → String
  | .eq => "=="
  | .ne => "!="
  | .lt => "<"
  | .le => "<="
  | .gt => ">"
  | .ge => ">="

/-- The source form of an operator. -/
def BinaryOp.symbol : BinaryOp → String
  | .add => "+"
  | .subtract => "-"
  | .multiply => "*"
  | .divide => "/"
  | .modulo => "%"
  | .generic s => s
  | .compare c => c.symbol

namespace Expr

instance : Inhabited Expr := ⟨.int 0⟩

/-- Induction on expressions: what holds of an expression whenever it holds of its direct parts
holds of every expression. -/
@[induction_eliminator]
protected theorem induct {P : Expr → Prop} (var : ∀ x, P (.var x))
    (access : ∀ a is, (∀ e ∈ is, P e) → P (.access a is)) (int : ∀ v, P (.int v))
    (double : ∀ d, P (.double d)) (neg : ∀ e, P e → P (.neg e))
    (binary : ∀ op l r, P l → P r → P (.binary op l r)) (paren : ∀ e, P e → P (.paren e))
    (cond : ∀ c t f, P c → P t → P f → P (.cond c t f))
    (call : ∀ f es, (∀ e ∈ es, P e) → P (.call f es)) (e : Expr) : P e :=
  @Expr.rec P (fun es => ∀ e ∈ es, P e) var access int double neg binary paren cond call
    (fun _ h => absurd h List.not_mem_nil)
    (fun _ _ he hes _ h => (List.mem_cons.1 h).elim (fun h => h ▸ he) (hes _)) e

/-- The direct parts of an expression, in evaluation order. -/
def children : Expr → List Expr
  | .var _ | .int _ | .double _ => []
  | .access _ is => is
  | .neg e | .paren e => [e]
  | .binary _ l r => [l, r]
  | .cond c t f => [c, t, f]
  | .call _ es => es

mutual

/-- All parts of an expression, itself included, a whole before its parts and otherwise in
evaluation order. -/
def subterms : Expr → List Expr
  | .var x => [.var x]
  | .access a is => .access a is :: subtermsList is
  | .int v => [.int v]
  | .double d => [.double d]
  | .neg e => .neg e :: subterms e
  | .binary op l r => .binary op l r :: (subterms l ++ subterms r)
  | .paren e => .paren e :: subterms e
  | .cond c t f => .cond c t f :: (subterms c ++ subterms t ++ subterms f)
  | .call f es => .call f es :: subtermsList es

/-- All parts of the expressions of a list. -/
def subtermsList : List Expr → List Expr
  | [] => []
  | e :: es => subterms e ++ subtermsList es

end

theorem subtermsList_eq (es : List Expr) : subtermsList es = es.flatMap subterms := by
  induction es with
  | nil => rfl
  | cons e es ih => simp [subtermsList, ih]

/-- The parts of an expression are itself and the parts of its direct parts. -/
theorem subterms_eq (e : Expr) : e.subterms = e :: e.children.flatMap subterms := by
  cases e <;> simp [subterms, children, subtermsList_eq]

/-- The name of a plain variable. -/
def asVariable? : Expr → Option String
  | .var x => some x
  | _ => none

/-- The name of the array of an element access. -/
def accessedArray? : Expr → Option String
  | .access a _ => some a
  | _ => none

/-- The name of a called procedure. -/
def calledProcedure? : Expr → Option String
  | .call f _ => some f
  | _ => none

/-- The name that an expression mentions at its top, as a variable or as an accessed array. -/
def mentioned? : Expr → Option String
  | .var x => some x
  | .access a _ => some a
  | _ => none

/-- The occurrences of variables, in evaluation order. Names of accessed arrays do not count. -/
def occurrences (e : Expr) : List String := e.subterms.filterMap asVariable?

/-- The variables of an expression. Names of accessed arrays do not count. -/
def vars (e : Expr) : OrderedSet String := .ofList e.occurrences

/-- The variables and accessed arrays of an expression. -/
def names (e : Expr) : OrderedSet String := .ofList (e.subterms.filterMap mentioned?)

/-- The procedures called by an expression. -/
def callees (e : Expr) : List String := e.subterms.filterMap calledProcedure?

/-- Whether an expression reads a name, as a variable or as an accessed array. -/
def reads (e : Expr) (name : String) : Bool := e.subterms.any fun t => t.mentioned? == some name

/-- The element accesses of an expression, an access before those in its indices. -/
def accesses (e : Expr) : List Expr := e.subterms.filter fun t => t.accessedArray?.isSome

/-- Whether an expression calls a procedure. -/
def hasCall (e : Expr) : Bool := e.subterms.any fun t => t.calledProcedure?.isSome

/-- Whether an expression reads an element of an array. -/
def hasAccess (e : Expr) : Bool := e.subterms.any fun t => t.accessedArray?.isSome

/-- Whether an expression computes something. -/
def isComputation : Expr → Bool
  | .neg _ | .binary .. | .paren _ | .cond .. => true
  | _ => false

/-- Whether the value of an expression may be kept for a later equal computation: it computes
something, and neither calls a procedure nor reads an element. -/
def isReusable (e : Expr) : Bool := e.isComputation && !e.hasCall && !e.hasAccess

mutual

/-- The expression with each variable replaced by its substitute, if it has one. Names of accessed
arrays stay. -/
def substitute (f : String → Option Expr) : Expr → Expr
  | .var x => (f x).getD (.var x)
  | .access a is => .access a (substituteList f is)
  | .int v => .int v
  | .double d => .double d
  | .neg e => .neg (substitute f e)
  | .binary op l r => .binary op (substitute f l) (substitute f r)
  | .paren e => .paren (substitute f e)
  | .cond c t e => .cond (substitute f c) (substitute f t) (substitute f e)
  | .call p es => .call p (substituteList f es)

/-- `substitute` in every expression of a list. -/
def substituteList (f : String → Option Expr) : List Expr → List Expr
  | [] => []
  | e :: es => substitute f e :: substituteList f es

end

theorem substituteList_eq (f : String → Option Expr) (es : List Expr) :
    substituteList f es = es.map (substitute f) := by
  induction es with
  | nil => rfl
  | cons e es ih => simp [substituteList, ih]

/-- Doubles in listings are written in full from 0.0001 up to 16 digits before the point. -/
def numerals : NumeralStyle := ⟨-4, 15, "", .up⟩

mutual

/-- An expression as it stands in a listing. -/
def text : Expr → String
  | .var x => x
  | .access a is => a ++ String.join ((textList is).map fun t => "[" ++ t ++ "]")
  | .int v => toString v
  | .double d => d.text numerals
  | .neg e => "-" ++ text e
  | .binary op l r => text l ++ " " ++ op.symbol ++ " " ++ text r
  | .paren e => "(" ++ text e ++ ")"
  | .cond c t f => text c ++ " ? " ++ text t ++ " : " ++ text f
  | .call p es => p ++ "(" ++ ", ".intercalate (textList es) ++ ")"

/-- The texts of the expressions of a list. -/
def textList : List Expr → List String
  | [] => []
  | e :: es => text e :: textList es

end

theorem textList_eq (es : List Expr) : textList es = es.map text := by
  induction es with
  | nil => rfl
  | cons e es ih => simp [textList, ih]

end Expr

end ParLoop
