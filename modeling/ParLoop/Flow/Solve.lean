import ParLoop.FlowGraph.Basic

/-!
# Flow problems

An `Analysis` says which facts a node lets through or adds; `Analysis.solve` carries facts along the
edges of a flow graph until nothing changes. A flow is visited as often as the facts at its source
have changed, and a solution is refused when more than a given number of visits are needed.

A node has no facts until some first arrive. These are stored as they are, and later ones are merged
into them, so that the same solver finds what holds on some path (`OrderedSet.union`) and what holds
on every path (`OrderedSet.inter`).

Between a call site and its callee only facts about the arguments go in, and only facts about the
result come back.
-/

namespace ParLoop

namespace Flow

/-- The direction in which facts are carried. -/
inductive Direction where
  | forward
  | backward
deriving DecidableEq

/-- What the worklist holds at first. -/
inductive Seed where
  /-- Every flow, in the order of the edges. -/
  | edges
  /-- Every node, in order; the flows of a node are visited together. -/
  | nodes
deriving DecidableEq

/-- A flow problem. -/
structure Analysis (F : Type) [Ord F] where
  name : String
  direction : Direction := .forward
  seed : Seed := .edges
  /-- The variable that a fact is about. -/
  subject : F → Option String
  /-- The facts of a node, from those it has and those that arrive. -/
  merge : OrderedSet F → OrderedSet F → OrderedSet F
  /-- The facts where the flow starts. -/
  extremal : FlowGraph → OrderedSet F
  /-- The facts that leave a node, from its number, the node and the facts that reach it. -/
  transfer : FlowGraph → Nat → Node → OrderedSet F → OrderedSet F

/-- The facts found at the nodes of a graph. -/
structure Solution (F : Type) [Ord F] where
  inputs : Array (Option (OrderedSet F))
  outputs : Array (Option (OrderedSet F))
  /-- How many flows were visited. -/
  visits : Nat

namespace Solution

variable {F : Type} [Ord F]

/-- The facts that reach a node, if anything does. -/
def input? (s : Solution F) (node : Nat) : Option (OrderedSet F) := s.inputs[node]?.join

/-- The facts that leave a node, if anything reaches it. -/
def output? (s : Solution F) (node : Nat) : Option (OrderedSet F) := s.outputs[node]?.join

/-- The facts that reach a node, none if nothing does. -/
def factsAt (s : Solution F) (node : Nat) : OrderedSet F := (s.input? node).getD ∅

/-- Whether anything reaches a node. -/
def isReached (s : Solution F) (node : Nat) : Bool := (s.input? node).isSome

end Solution

/-! ### The worklist -/

/-- The flows that leave a node. -/
def Direction.flowsFrom (d : Direction) (g : FlowGraph) (node : Nat) : List Edge :=
  (match d with
    | .forward => g.successors node
    | .backward => g.predecessors node).map fun target => ⟨node, target⟩

/-- An edge as a flow. -/
def Direction.flow (d : Direction) (e : Edge) : Edge :=
  match d with
  | .forward => e
  | .backward => ⟨e.target, e.source⟩

/-- Where the flow starts. -/
def Direction.origin (d : Direction) (g : FlowGraph) : Nat :=
  match d with
  | .forward => g.start
  | .backward => g.stop

/-- The flows to visit, and the nodes whose flows are to be visited after these. -/
structure Worklist where
  flows : List Edge := []
  nodes : List Nat := []

namespace Worklist

/-- The first worklist for a graph. -/
def init (d : Direction) (seed : Seed) (g : FlowGraph) : Worklist :=
  match seed with
  | .edges => { flows := g.edges.toList.map d.flow }
  | .nodes => { nodes := List.range g.size }

/-- The first flow of a list of nodes, with what is left to visit. -/
def nextOfNodes (flowsFrom : Nat → List Edge) : List Nat → Option (Edge × Worklist)
  | [] => none
  | node :: rest =>
    match flowsFrom node with
    | [] => nextOfNodes flowsFrom rest
    | e :: es => some (e, ⟨es, rest⟩)

/-- The flow to visit next, with what is left to visit. -/
def next (flowsFrom : Nat → List Edge) (w : Worklist) : Option (Edge × Worklist) :=
  match w.flows with
  | e :: es => some (e, { w with flows := es })
  | [] => nextOfNodes flowsFrom w.nodes

/-- The worklist after the facts of a node have changed. -/
def push (seed : Seed) (flowsFrom : Nat → List Edge) (node : Nat) (w : Worklist) : Worklist :=
  match seed with
  | .edges => { w with flows := w.flows ++ flowsFrom node }
  | .nodes => if node ∈ w.nodes then w else { w with nodes := w.nodes ++ [node] }

end Worklist

/-! ### The solver -/

/-- The state of a solver. -/
structure Progress (F : Type) [Ord F] where
  /-- The facts that reached each node so far. -/
  inputs : Array (Option (OrderedSet F))
  worklist : Worklist
  /-- How many flows were visited. -/
  visits : Nat := 0

/-- How many flows a solver visits at most, unless told otherwise. -/
def defaultCap : Nat := 100000

namespace Analysis

variable {F : Type} [Ord F]

/-- The facts that leave a node. -/
def leaving (a : Analysis F) (g : FlowGraph) (node : Nat) (facts : OrderedSet F) :
    OrderedSet F :=
  match g.nodes[node]? with
  | none => facts
  | some n =>
    match n.kind with
    | .enter _ callee => facts.filter fun f =>
        (a.subject f).any fun x => (argumentPrefix callee).toList.isPrefixOf x.toList
    | .leave callee _ => facts.filter fun f => a.subject f == some (resultName callee)
    | _ => a.transfer g node n facts

/-- The state in which only the origin has facts. -/
def init (a : Analysis F) (g : FlowGraph) : Progress F where
  inputs := (Array.replicate g.size none).setIfInBounds (a.direction.origin g) (some (a.extremal g))
  worklist := .init a.direction a.seed g

variable [DecidableEq F]

/-- The facts of a node after others have arrived, if this changes them. -/
def arrive (a : Analysis F) (stored : Option (OrderedSet F)) (incoming : OrderedSet F) :
    Option (OrderedSet F) :=
  match stored with
  | none => some incoming
  | some stored =>
    let merged := a.merge stored incoming
    if merged = stored then none else some merged

/-- The state after facts have been carried along a flow, the rest of the worklist given. -/
def visit (a : Analysis F) (g : FlowGraph) (s : Progress F) (e : Edge) (rest : Worklist) :
    Progress F :=
  let s := { s with worklist := rest, visits := s.visits + 1 }
  match s.inputs[e.source]?.join with
  | none => s
  | some facts =>
    match a.arrive s.inputs[e.target]?.join (a.leaving g e.source facts) with
    | none => s
    | some facts =>
      { s with
        inputs := s.inputs.setIfInBounds e.target (some facts)
        worklist := rest.push a.seed (a.direction.flowsFrom g) e.target }

/-- Visits flows until none is left, unless there are more than allowed. -/
def run (a : Analysis F) (g : FlowGraph) : Nat → Progress F → Option (Progress F)
  | allowed, s =>
    match s.worklist.next (a.direction.flowsFrom g) with
    | none => some s
    | some (e, rest) =>
      match allowed with
      | 0 => none
      | allowed + 1 => run a g allowed (a.visit g s e rest)

/-- The solution of a flow problem within a number of visits. -/
def solve (a : Analysis F) (g : FlowGraph) (cap : Nat) : Except AnalysisError (Solution F) :=
  match a.run g cap (a.init g) with
  | none => .error (.notConverged a.name cap)
  | some s => .ok {
      inputs := s.inputs
      outputs := s.inputs.mapIdx fun node facts => facts.map (a.leaving g node)
      visits := s.visits }

end Analysis

end Flow

end ParLoop
