import ParLoop.Flow.Aliases
import ParLoop.Flow.Dependence
import ParLoop.Verify.Verdict

/-!
# Accesses to arrays

Every access is counted to the storages that its array may denote. Where a storage is written, each
access to it has to have exactly one index that changes with the iteration, and all accesses have to
agree on its place and on the index itself. Each iteration then has a slice of the storage for
itself.

Indices are compared after copies have been followed back to where they come from: two indices agree
if they are equal as expressions and their variables have the same definitions.
-/

namespace ParLoop.Verify

/-- The accesses of an instruction at a node, in evaluation order. Of the accesses of an assignment
to an element, the first is the element itself. -/
def accessesOf (node : Nat) (i : Instr) : List Access :=
  (i.expressions.flatMap Expr.accesses).zipIdx.map fun (e, k) =>
    ⟨node, e, i.writtenArray?.isSome && k = 0⟩

/-- The accesses in a graph, in the order of the nodes. -/
def accesses (g : FlowGraph) : List Access :=
  g.instrNodes.flatMap fun (node, i) => accessesOf node i

/-- An index with its variables followed back. -/
structure Index where
  /-- The place of the index among the indices of the access. -/
  dimension : Nat
  expression : Expr
  /-- The variables of the expression as they occur, each with the nodes that define it. -/
  definitions : List (String × OrderedSet Nat)
deriving DecidableEq

/-- The variable that a plain copy at a node reads, if the node is a copy to `name` from another
variable. -/
def copied? (g : FlowGraph) (node : Nat) (name : String) : Option String :=
  match g.instr? node with
  | some (.assign (.var x) (.var y)) => if x = name && y ≠ name then some y else none
  | _ => none

/-- Follows a variable back through copies with a single definition, at most `steps` of them: the
last variable and the nodes that define it. -/
def trace (g : FlowGraph) (facts : Flow.Solution Descriptor) :
    Nat → String → Nat → String × OrderedSet Nat
  | 0, name, node => (name, Descriptor.definitionsOf (facts.factsAt node) name)
  | steps + 1, name, node =>
    let definitions := Descriptor.definitionsOf (facts.factsAt node) name
    match definitions.toList with
    | [only] =>
      match copied? g only name with
      | some source => trace g facts steps source only
      | none => (name, definitions)
    | _ => (name, definitions)

/-- The index of an access that changes with the iteration. -/
def indexOf (g : FlowGraph) (facts : Flow.Solution Descriptor) (a : Access) (array : String)
    (indices : List Expr) : Except AnalysisError Index :=
  let follow (x : String) : String × OrderedSet Nat := trace g facts g.size x a.node
  match indices.zipIdx.filter fun (e, _) =>
      Descriptor.isLoopDependent (facts.factsAt a.node) e with
  | [(e, dimension)] => .ok {
      dimension := dimension
      expression := e.substitute fun x => some (.var (follow x).1)
      definitions := e.occurrences.map follow }
  | [] => .error (.noVaryingIndex a.expression a.node)
  | _ => .error (.severalVaryingIndices array a.node)

/-- An access to an element of an array, with the storages that the array may denote. -/
structure Located where
  access : Access
  array : String
  indices : List Expr
  targets : OrderedSet Expr

/-- Finds the storages of an access. -/
def locate (storages : Flow.Solution Alias) (a : Access) : Except AnalysisError (Option Located) :=
  match a.expression with
  | .access array [] => .error (.emptyAccess array)
  | .access array indices => do
    return some ⟨a, array, indices, ← Flow.aliasesAt storages a.node array⟩
  | _ => return none

/-- The check of one storage, given the accesses to it. -/
def checkTarget (g : FlowGraph) (facts : Flow.Solution Descriptor) (target : Expr)
    (group : List Located) : Except AnalysisError (Option Rejection) := do
  if group.any fun l => l.access.isWrite then
    let indices ← group.mapM fun l => indexOf g facts l.access l.array l.indices
    if indices.all fun i => indices.head? = some i then return none
    else return some ⟨.arrays, .conflict target (group.map (·.access))⟩
  else return none

/-- The check that no two iterations access the same element if one of them writes it. -/
def checkArrays (g : FlowGraph) (facts : Flow.Solution Descriptor)
    (storages : Flow.Solution Alias) : Except AnalysisError (Option Rejection) := do
  let located := (← (accesses g).mapM (locate storages)).reduceOption
  let targets : OrderedSet Expr := located.foldl (fun s l => s.union l.targets) ∅
  targets.toList.findSomeM? fun target =>
    checkTarget g facts target (located.filter fun l => l.targets.contains target)

end ParLoop.Verify
