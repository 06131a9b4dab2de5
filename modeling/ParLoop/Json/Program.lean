import ParLoop.Json.Basic
import ParLoop.Program

/-!
# Programs as JSON

The JSON form of programs and their parts. A variant is an object with the name of the variant as
its only member, or the bare name if the variant has no fields.
-/

namespace ParLoop

open Json

/-- The JSON form of a comparison. -/
def Comparison.toJson : Comparison → Json
  | .eq => .str "Eq"
  | .ne => .str "Ne"
  | .lt => .str "Lt"
  | .le => .str "Le"
  | .gt => .str "Gt"
  | .ge => .str "Ge"

/-- The JSON form of an operator. -/
def BinaryOp.toJson : BinaryOp → Json
  | .add => .str "Add"
  | .subtract => .str "Subtract"
  | .multiply => .str "Multiply"
  | .divide => .str "Divide"
  | .modulo => .str "Modulo"
  | .generic s => tagged "Generic" (.str s)
  | .compare c => tagged "Comparison" c.toJson

namespace Expr

mutual

/-- The JSON form of an expression. -/
def toJson : Expr → Json
  | .var x => tagged "Variable" (.str x)
  | .access a is =>
    tagged "ArrayAccess" (.obj [("name", .str a), ("accessors", .arr (toJsonList is))])
  | .int v => tagged "IntegerLiteral" (.int v)
  | .double d => tagged "DoubleLiteral" (.double d)
  | .neg e => tagged "UnaryMinus" (toJson e)
  | .binary op l r =>
    tagged "Binary" (.obj [("op", op.toJson), ("left", toJson l), ("right", toJson r)])
  | .paren e => tagged "Parentheses" (toJson e)
  | .cond c t f =>
    tagged "Conditional"
      (.obj [("condition", toJson c), ("when_true", toJson t), ("when_false", toJson f)])
  | .call p es => tagged "Invocation" (.obj [("name", .str p), ("arguments", .arr (toJsonList es))])

/-- The JSON forms of the expressions of a list. -/
def toJsonList : List Expr → List Json
  | [] => []
  | e :: es => toJson e :: toJsonList es

end

end Expr

/-- The JSON form of an instruction. -/
def Instr.toJson : Instr → Json
  | .assign t v => tagged "Assignment" (.obj [("target", t.toJson), ("value", v.toJson)])
  | .declare x => tagged "Declaration" (.obj [("name", .str x)])
  | .label l => tagged "Label" (.obj [("name", .str l)])
  | .jump l => tagged "Jump" (.obj [("target", .str l)])
  | .branch c l => tagged "ConditionalJump" (.obj [("condition", c.toJson), ("target", .str l)])
  | .call p es =>
    tagged "Invocation" (.obj [("name", .str p), ("arguments", .arr (es.map Expr.toJson))])

/-- The JSON form of a procedure. -/
def Procedure.toJson (p : Procedure) : Json :=
  .obj [
    ("name", .str p.name),
    ("parameters", .arr (p.parameters.map .str)),
    ("body", .arr (p.body.map Instr.toJson))]

/-- The name of a visibility in JSON. -/
def Visibility.tag : Visibility → String
  | .localVariable => "Local"
  | .parameter => "Parameter"
  | .privateMember => "PrivateMember"
  | .publicMember => "PublicMember"

/-- The name of a kind of rebinding in JSON. -/
def RebindingKind.tag : RebindingKind → String
  | .assignment => "Assignment"
  | .initializer => "Initializer"
  | .refArgument => "RefArgument"

/-- The name of what a symbol is bound to in JSON. -/
def RebindingValue.tag : RebindingValue → String
  | .fresh => "FreshConstruction"
  | .null => "NullLiteral"
  | .reference => "Reference"

/-- The JSON form of a symbol. -/
def Symbol.toJson (s : Symbol) : Json :=
  .obj [
    ("name", .str s.name),
    ("visibility", .str s.visibility.tag),
    ("element_type",
      .obj [("name", .str s.element.name), ("is_value_type", .bool s.element.isValue)]),
    ("rank", .int s.rank),
    ("rebindings",
      .arr (s.rebindings.map fun r =>
        .obj [("kind", .str r.kind.tag), ("value", .str r.value.tag)]))]

/-- The JSON form of a table. -/
def NameMap.toJson {β : Type} (f : β → Json) (m : NameMap β) : Json :=
  .obj (m.entries.map fun e => (e.1, f e.2))

/-- The JSON form of a program. -/
def Program.toJson (p : Program) : Json :=
  .obj [
    ("induction_variable", .str p.counter),
    ("lower_bound", ofOption Expr.toJson p.lower),
    ("upper_bound", ofOption Expr.toJson p.upper),
    ("body", .arr (p.body.map Instr.toJson)),
    ("procedures", p.procedures.toJson Procedure.toJson),
    ("symbols", .obj [("symbols", p.symbols.toJson Symbol.toJson)])]

end ParLoop
