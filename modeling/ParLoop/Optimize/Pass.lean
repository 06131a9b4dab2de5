import ParLoop.Flow.Available
import ParLoop.Flow.Copies
import ParLoop.FlowGraph.Build

/-!
# Passes over a body

Two passes bring equal computations into one form. `Pass.reuse` replaces a computation by a variable
that holds its result already; `Pass.forward` reads a copy at its source. Both change instructions
one by one, from the facts that hold where control reaches them, and keep the length of the body.
-/

namespace ParLoop

/-- A way to simplify a body. -/
inductive Pass where
  /-- Reads the result of an earlier equal computation. -/
  | reuse
  /-- Reads the source of a copy instead of the copy. -/
  | forward
deriving DecidableEq

namespace Pass

/-- The name of a pass. -/
def name : Pass → String
  | .reuse => "cse"
  | .forward => "copy-propagation"

/-- The instruction that reuses an available result, if there is one. Of several results the one of
the first node is taken. -/
def reuseAt (facts : OrderedSet Computation) : Instr → Option Instr
  | .assign (.var x) value =>
    if value.isReusable && !value.reads x then
      (facts.toList.find? fun f => f.value = value && f.target ≠ x).map fun f =>
        .assign (.var x) (.var f.target)
    else none
  | _ => none

/-- The variable to read in place of a variable: the source of its only copy. -/
def sourceOf (facts : OrderedSet Copy) (x : String) : Option Expr :=
  match Copy.sourcesOf facts x with
  | [source] => some (.var source)
  | _ => none

/-- The instruction that reads copies at their sources, if it reads any. -/
def forwardAt (facts : OrderedSet Copy) (i : Instr) : Option Instr :=
  let changed := i.substitute (sourceOf facts)
  if changed = i then none else some changed

/-- A body with some instructions replaced, and how many. -/
def replaceAll (change : Instr → Nat → Option Instr) (body : List Instr) : List Instr × Nat :=
  let changes := body.zipIdx.map fun (i, index) => (i, change i index)
  (changes.map fun (i, new) => new.getD i, changes.countP fun (_, new) => new.isSome)

/-- What a pass does to the instruction at a position of a procedure. -/
def changes (p : Pass) (f : Procedure) (cap : Nat) :
    Except AnalysisError (Instr → Nat → Option Instr) := do
  let g ← FlowGraph.ofProcedure f
  match p with
  | .reuse =>
    let s ← Flow.available.solve g cap
    return fun i index => (g.position? f.name index).bind fun node => reuseAt (s.factsAt node) i
  | .forward =>
    let s ← Flow.copies.solve g cap
    return fun i index => (g.position? f.name index).bind fun node => forwardAt (s.factsAt node) i

/-- The procedure after a pass, and the number of instructions replaced. -/
def apply (p : Pass) (f : Procedure) (cap : Nat) : Except AnalysisError (Procedure × Nat) := do
  let change ← p.changes f cap
  let (body, count) := replaceAll change f.body
  return ({ f with body := body }, count)

end Pass

end ParLoop
