import ParLoop.Instr
import ParLoop.Proofs.Expr.Subterms

/-!
# Other names

`Expr.rename` gives the variables and the accessed arrays of an expression other names. The shape of
the expression stays, and so do the procedures it calls; its parts are renamed with it
(`subterms_rename`).
-/

namespace ParLoop

/-- Other names for variables and for accessed arrays. -/
structure Renaming where
  var : String → String := id
  array : String → String := id

namespace Expr

variable (r : Renaming)

mutual

/-- The expression with other names. -/
def rename (r : Renaming) : Expr → Expr
  | .var x => .var (r.var x)
  | .access a is => .access (r.array a) (renameList r is)
  | .int v => .int v
  | .double d => .double d
  | .neg e => .neg (rename r e)
  | .binary op l e => .binary op (rename r l) (rename r e)
  | .paren e => .paren (rename r e)
  | .cond c t f => .cond (rename r c) (rename r t) (rename r f)
  | .call p es => .call p (renameList r es)

/-- `rename` in every expression of a list. -/
def renameList (r : Renaming) : List Expr → List Expr
  | [] => []
  | e :: es => rename r e :: renameList r es

end

theorem renameList_eq (es : List Expr) : renameList r es = es.map (rename r) := by
  induction es with
  | nil => rfl
  | cons e es ih => simp [renameList, ih]

theorem children_rename (e : Expr) : (e.rename r).children = e.children.map (rename r) := by
  cases e <;> simp [rename, children, renameList_eq]

theorem calledProcedure?_rename (e : Expr) :
    (e.rename r).calledProcedure? = e.calledProcedure? := by
  cases e <;> rfl

/-- The parts of an expression are renamed with it. -/
theorem subterms_rename (e : Expr) : (e.rename r).subterms = e.subterms.map (rename r) := by
  induction e using induct_children with
  | h e ih =>
    rw [subterms_eq, subterms_eq e, children_rename, List.map_cons, List.flatMap_map,
      List.map_flatMap]
    exact congrArg _ (List.flatMap_congr ih)

theorem mem_names {e : Expr} {x : String} : x ∈ e.names ↔ e.reads x = true := by
  simp [names, reads]

end Expr

namespace Instr

variable (r : Renaming)

/-- The instruction with other names. -/
def rename (r : Renaming) : Instr → Instr
  | .assign target value => .assign (target.rename r) (value.rename r)
  | .declare x => .declare (r.var x)
  | .label l => .label l
  | .jump l => .jump l
  | .branch c l => .branch (c.rename r) l
  | .call p es => .call p (es.map (Expr.rename r))

theorem expressions_rename (i : Instr) :
    (i.rename r).expressions = i.expressions.map (Expr.rename r) := by
  cases i with
  | assign t e => cases t <;> simp [rename, expressions, Expr.rename]
  | _ => simp [rename, expressions]

/-- Whether an instruction mentions a name, as a variable or as an accessed array. -/
def mentions (x : String) : Instr → Bool
  | .assign target value => target.reads x || value.reads x
  | .declare y => y == x
  | .branch c _ => c.reads x
  | .call _ es => es.any (·.reads x)
  | .label _ | .jump _ => false

end Instr

end ParLoop
