import ParLoop.FlowGraph.Basic
import ParLoop.FlowGraph.Calls
import ParLoop.Program

/-!
# The flow graph of a body

`FlowGraph.ofProcedure` builds the graph of one body: a node for each instruction, in the order of
the body, between the start and the stop. `FlowGraph.ofProgram` can also join the bodies of the
called procedures to it. A call is then taken out of the instruction that makes it:

* its arguments, in which calls are taken out first, are stored in the variables `argumentName`;
* a call site follows, from which one node leads into the callee and to which one leads back;
* the result is kept in a variable `captureName` of its own, which stands in place of the call.

The body of a procedure is built at the first call of it.
-/

namespace ParLoop

/-- A flow graph under construction. -/
structure Draft where
  graph : FlowGraph
  calls : CallGraph
  /-- The procedures whose bodies were begun. -/
  entered : OrderedSet String
  /-- How many results of calls of each procedure were kept. -/
  captures : NameMap Nat := ∅
  /-- The node after which control goes on to whatever is added next. -/
  cursor : Option Nat := none

/-- A step of the construction, which may find the loop unsupported. -/
abbrev Build := StateT Draft (Except AnalysisError)

namespace Build

/-- Changes the graph. -/
def grow (f : FlowGraph → FlowGraph) : Build Unit := modify fun d => { d with graph := f d.graph }

/-- Says where control goes on from. -/
def moveTo (cursor : Option Nat) : Build Unit := modify fun d => { d with cursor := cursor }

/-- Lets control go on from the cursor to a node. -/
def connect (node : Nat) : Build Unit := do
  match (← get).cursor with
  | some last => grow fun g => g.addEdge last node
  | none => pure ()

/-- Appends the node that `add` adds to a graph, and answers its number. -/
def append (add : FlowGraph → FlowGraph) : Build Nat := do
  let node := (← get).graph.size
  grow add
  connect node
  moveTo (some node)
  return node

/-- Appends a node. -/
def emit (procedure : String) (kind : NodeKind) : Build Nat :=
  append fun g => g.addNode procedure kind

/-- Appends an instruction that stands at no position of a body. -/
def emitInstr (procedure : String) (i : Instr) : Build Unit := do
  let _ ← emit procedure (.instr i)

/-- The boundary of a procedure, added if the graph has none. -/
def boundary (procedure : String) : Build Boundary := do
  grow fun g => g.addProcedure procedure
  return ((← get).graph.boundary? procedure).getD ⟨0, 0⟩

/-! ### Calls -/

/-- How calls are joined to their callees. -/
structure Linking where
  procedures : NameMap Procedure
  /-- Builds the body of a procedure, given the name under which it is called. -/
  enter : String → Procedure → Build Unit

/-- Stores an argument of a call in its variable. -/
def bindArgument (caller callee : String) (argument : Expr) (index : Nat) : Build Expr := do
  let x := argumentName callee index
  emitInstr caller (.declare x)
  emitInstr caller (.assign (.var x) argument)
  return .var x

/-- Appends a call whose arguments call nothing, and answers the node of the call. -/
def call (linking : Linking) (caller callee : String) (arguments : List Expr) : Build Nat := do
  let some target := linking.procedures.find? callee | throw (.unknownProcedure callee)
  let bound ← arguments.zipIdx.mapM fun (e, k) => bindArgument caller callee e k
  let node ← emit caller (.invocation callee bound)
  unless (← get).entered.contains callee do
    modify fun d => { d with entered := d.entered.insert callee }
    linking.enter callee target
  let inner ← boundary callee
  let enter := (← get).graph.size
  let leave := enter + 1
  grow fun g => (((((g.addNode caller (.enter caller callee)).addNode caller
    (.leave callee caller)).addEdge node enter).addEdge enter inner.start).addEdge inner.stop
    leave).addEdge leave node
  modify fun d => { d with calls := d.calls.add ⟨caller, callee, node, enter, leave⟩ }
  moveTo (some node)
  return node

/-- Appends a call and keeps its result. -/
def callValue (linking : Linking) (caller callee : String) (arguments : List Expr) :
    Build Expr := do
  let _ ← call linking caller callee arguments
  let count := ((← get).captures.find? callee).getD 0
  modify fun d => { d with captures := d.captures.insert callee (count + 1) }
  let x := captureName callee count
  emitInstr caller (.declare x)
  emitInstr caller (.assign (.var x) (.var (resultName callee)))
  return .var x

mutual

/-- Takes the calls out of an expression, in evaluation order. -/
def hoist (linking : Linking) (caller : String) : Expr → Build Expr
  | .var x => return .var x
  | .access a is => return .access a (← hoistList linking caller is)
  | .int v => return .int v
  | .double d => return .double d
  | .neg e => return .neg (← hoist linking caller e)
  | .binary op l r => do
    let l ← hoist linking caller l
    let r ← hoist linking caller r
    return .binary op l r
  | .paren e => return .paren (← hoist linking caller e)
  | .cond c t f => do
    let c ← hoist linking caller c
    let t ← hoist linking caller t
    let f ← hoist linking caller f
    return .cond c t f
  | .call f es => do callValue linking caller f (← hoistList linking caller es)

/-- Takes the calls out of the expressions of a list. -/
def hoistList (linking : Linking) (caller : String) : List Expr → Build (List Expr)
  | [] => return []
  | e :: es => do
    let e ← hoist linking caller e
    let es ← hoistList linking caller es
    return e :: es

end

/-- Takes the calls out of an instruction. Nothing is left of a call made for its effects: its call
site stands for it. -/
def hoistInstr (linking : Linking) (procedure : String) (index : Nat) :
    Instr → Build (Option Instr)
  | .assign (.access a is) value => do
    let target ← hoist linking procedure (.access a is)
    let value ← hoist linking procedure value
    return some (.assign target value)
  | .assign target value => return some (.assign target (← hoist linking procedure value))
  | .branch c l => return some (.branch (← hoist linking procedure c) l)
  | .call f es => do
    let node ← call linking procedure f (← hoistList linking procedure es)
    grow fun g => g.mapPosition procedure index node
    return none
  | i => return some i

/-! ### Bodies -/

/-- The labels and the jumps of a body, with their nodes. -/
structure Landmarks where
  labels : List (String × Nat) := []
  jumps : List (Nat × String) := []

/-- Appends the instruction at a position of a body. -/
def addInstr (linking : Option Linking) (procedure : String) (marks : Landmarks) :
    Instr × Nat → Build Landmarks
  | (i, index) => do
    let left ← match linking with
      | some linking => hoistInstr linking procedure index i
      | none => pure (some i)
    let some left := left | return marks
    let node ← append fun g => g.placeInstr procedure index left
    match i with
    | .label l =>
      if (marks.labels.lookup l).isSome then throw (.duplicateLabel l procedure)
      return { marks with labels := marks.labels ++ [(l, node)] }
    | .jump l =>
      moveTo none
      return { marks with jumps := marks.jumps ++ [(node, l)] }
    | .branch _ l => return { marks with jumps := marks.jumps ++ [(node, l)] }
    | _ => return marks

/-- Lets control go from a jump to its label. -/
def addJump (procedure : String) (marks : Landmarks) (node : Nat) (label : String) :
    Build Unit := do
  let some target := marks.labels.lookup label | throw (.unknownLabel label procedure)
  grow fun g => g.addEdge node target

/-- Builds a body between the start and the stop of a procedure. -/
def addBody (linking : Option Linking) (procedure : String) (entry body : List Instr) :
    Build Unit := do
  let b ← boundary procedure
  moveTo (some b.start)
  entry.forM (emitInstr procedure)
  let marks ← body.zipIdx.foldlM (addInstr linking procedure) {}
  connect b.stop
  marks.jumps.forM fun (node, l) => addJump procedure marks node l

/-- What a called procedure does before its body: it declares its result, and its parameters with
the values of the arguments. -/
def entryOf (f : Procedure) : List Instr :=
  .declare (resultName f.name) :: f.parameters.zipIdx.flatMap fun (x, k) =>
    [.declare x, .assign (.var x) (.var (argumentName f.name k))]

/-- The linking that goes down a number of calls. A call that goes deeper than there are procedures
finds its callee entered. -/
def linkingTo (procedures : NameMap Procedure) : Nat → Linking
  | 0 => ⟨procedures, fun _ _ => pure ()⟩
  | depth + 1 => ⟨procedures, fun name f =>
      addBody (some (linkingTo procedures depth)) name (entryOf f) f.body⟩

/-- Builds the graph of a body from nothing. -/
def complete (linking : Option Linking) (f : Procedure) :
    Except AnalysisError (FlowGraph × CallGraph) := do
  let d : Draft :=
    { graph := .ofRoot f.name, calls := { root := f.name }, entered := .ofList [f.name] }
  let (_, d) ← (addBody linking f.name [] f.body).run d
  return (d.graph.settle, d.calls)

end Build

namespace FlowGraph

/-- The flow graph of the loop body of a program, with its calls. If it is `interprocedural`, it
goes through the bodies of the called procedures; if not, a call is part of an instruction. -/
def ofProgram (p : Program) (interprocedural : Bool) :
    Except AnalysisError (FlowGraph × CallGraph) :=
  Build.complete
    (if interprocedural then some (Build.linkingTo p.procedures p.procedures.size) else none) p.root

/-- The flow graph of a procedure alone. -/
def ofProcedure (f : Procedure) : Except AnalysisError FlowGraph :=
  return (← Build.complete none f).1

end FlowGraph

end ParLoop
