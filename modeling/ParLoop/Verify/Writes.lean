import ParLoop.Flow.Names
import ParLoop.FlowGraph.Build
import ParLoop.Verify.Verdict

/-!
# Writes to shared variables

A variable declared outside the loop is shared by all iterations. A procedure writes a shared
variable where it assigns one that, on some path, it has not declared itself.
-/

namespace ParLoop.Verify

/-- The variables that a procedure assigns where its own declarations do not reach on every path,
besides those `known` at its start. -/
def undeclaredWrites (f : Procedure) (known : OrderedSet String) (cap : Nat) :
    Except AnalysisError (OrderedSet String) := do
  let g ← FlowGraph.ofProcedure f
  let s ← (Flow.declared "declared-names" .edges OrderedSet.inter known).solve g cap
  return .ofList (g.instrNodes.filterMap fun
    | (node, .assign (.var x) _) =>
      (s.input? node).bind fun facts => if facts.contains x then none else some x
    | _ => none)

/-- The shared variables that a procedure of a graph writes: its parameters are its own, and so is
the result of a called procedure. -/
def sharedWritesOf (p : Program) (g : FlowGraph) (cap : Nat) (name : String) :
    Except AnalysisError (OrderedSet String) :=
  if name = g.root then undeclaredWrites p.root ∅ cap
  else
    match p.procedures.find? name with
    | some f => undeclaredWrites f (.ofList (resultName f.name :: f.parameters)) cap
    | none => .ok ∅

/-- The shared variables that the procedures of a graph write. -/
def sharedWrites (p : Program) (g : FlowGraph) (cap : Nat) :
    Except AnalysisError (OrderedSet String) :=
  g.boundaries.names.foldlM (fun s name => return s.union (← sharedWritesOf p g cap name)) ∅

/-- The check that no shared variable is written. -/
def checkWrites (p : Program) (g : FlowGraph) (cap : Nat) :
    Except AnalysisError (Option Rejection) := do
  let names ← sharedWrites p g cap
  return if names.isEmpty then none else some ⟨.writes, .sharedWrites names.toList⟩

end ParLoop.Verify
