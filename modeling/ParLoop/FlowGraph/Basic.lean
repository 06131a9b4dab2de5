import ParLoop.AnalysisError
import ParLoop.Instr
import ParLoop.NameMap

/-!
# Flow graphs

A flow graph holds the nodes of one or several bodies and the edges along which control passes.
Nodes are numbered in the order in which they are added. Each procedure of the graph has a
*boundary*, the pair of its start and its stop; the graph is grown by

* `addProcedure`, `addNode`, `addEdge`, which never add a boundary or an edge twice,
* `placeInstr` and `mapPosition`, which remember the node of a position in a body,
* `settle`, which sends every node without a way out to the stop of its procedure and computes the
  neighbours of all nodes.
-/

namespace ParLoop

/-! ### Names that carry values across a call

A call stores its arguments in variables that the callee reads, and the callee leaves its result in
a variable that the caller reads. A dollar sign keeps these names apart from most names of a
listing. -/

/-- What the names of all arguments of a procedure start with. -/
def argumentPrefix (procedure : String) : String := "$arg_" ++ procedure ++ "_"

/-- The variable that holds an argument of a procedure, counted from 0. -/
def argumentName (procedure : String) (index : Nat) : String :=
  argumentPrefix procedure ++ toString index

/-- The variable that holds the result of a procedure. -/
def resultName (procedure : String) : String := "$result_" ++ procedure

/-- The variable that keeps the result of one call of a procedure, counted from 0. -/
def captureName (procedure : String) (index : Nat) : String :=
  "$call_" ++ procedure ++ "_" ++ toString index

/-! ### Nodes and edges -/

/-- What a node stands for. -/
inductive NodeKind where
  | instr (instr : Instr)
  /-- Where control enters a procedure. -/
  | start
  /-- Where control leaves a procedure. -/
  | stop
  /-- A call site, with the variables that hold the arguments. -/
  | invocation (callee : String) (arguments : List Expr)
  /-- Control passes from a call site into the callee. -/
  | enter (caller callee : String)
  /-- Control passes from the callee back to the call site. -/
  | leave (callee caller : String)
deriving DecidableEq

/-- A node of a flow graph. -/
structure Node where
  /-- The procedure that the node belongs to. -/
  procedure : String
  kind : NodeKind
deriving DecidableEq

/-- The instruction that a node stands for. -/
def Node.instr? (n : Node) : Option Instr :=
  match n.kind with
  | .instr i => some i
  | _ => none

/-- Whether control leaves a procedure at a node. -/
def Node.isStop (n : Node) : Bool := n.kind matches .stop

/-- A node in words. -/
def Node.text (n : Node) : String :=
  match n.kind with
  | .instr i => i.text
  | .start => "start " ++ n.procedure
  | .stop => "end " ++ n.procedure
  | .invocation f es => "invoke " ++ (Expr.call f es).text
  | .enter a b => "enter " ++ a ++ " -> " ++ b
  | .leave a b => "return " ++ a ++ " -> " ++ b

/-- A step of control. -/
structure Edge where
  source : Nat
  target : Nat
deriving DecidableEq

/-- The nodes where control enters and leaves a procedure. -/
structure Boundary where
  start : Nat
  stop : Nat
deriving DecidableEq

/-- The nodes from which, and to which, an edge joins a node, in the order of the edges. -/
structure Neighbours where
  before : List Nat := []
  after : List Nat := []
deriving DecidableEq

/-- The flow graph of a body, possibly with the procedures it calls. -/
structure FlowGraph where
  /-- The procedure where control starts. -/
  root : String
  nodes : Array Node
  /-- The edges in the order in which they were added. -/
  edges : Array Edge
  boundaries : NameMap Boundary
  /-- The node of each position in a body, the position given by procedure and index. -/
  positions : List ((String × Nat) × Nat)
  /-- The neighbours of the nodes when the graph was last settled. -/
  neighbours : Array Neighbours
  /-- Nothing was added since the graph was settled. -/
  settled : Bool
deriving DecidableEq

namespace FlowGraph

/-- The number of nodes. -/
def size (g : FlowGraph) : Nat := g.nodes.size

/-- The boundary of a procedure. -/
def boundary? (g : FlowGraph) (procedure : String) : Option Boundary :=
  g.boundaries.find? procedure

/-- The node of a position in a body. -/
def position? (g : FlowGraph) (procedure : String) (index : Nat) : Option Nat :=
  g.positions.lookup (procedure, index)

/-- The instruction of a node. -/
def instr? (g : FlowGraph) (node : Nat) : Option Instr := g.nodes[node]?.bind Node.instr?

/-- The instruction nodes with their instructions, in the order of the nodes. -/
def instrNodes (g : FlowGraph) : List (Nat × Instr) :=
  g.nodes.toList.zipIdx.filterMap fun (n, k) => n.instr?.map fun i => (k, i)

/-- The nodes to which an edge led from a node when the graph was last settled. -/
def successors (g : FlowGraph) (node : Nat) : List Nat := (g.neighbours.getD node {}).after

/-- The nodes from which an edge led to a node when the graph was last settled. -/
def predecessors (g : FlowGraph) (node : Nat) : List Nat := (g.neighbours.getD node {}).before

/-! ### Growing a graph -/

/-- The graph with one more node, whose number is the number of nodes before. -/
def addNode (g : FlowGraph) (procedure : String) (kind : NodeKind) : FlowGraph :=
  { g with nodes := g.nodes.push ⟨procedure, kind⟩, settled := false }

/-- The graph with a boundary for a procedure, which may have one already. -/
def addProcedure (g : FlowGraph) (procedure : String) : FlowGraph :=
  if g.boundaries.contains procedure then g
  else
    { (g.addNode procedure .start).addNode procedure .stop with
      boundaries := g.boundaries.insert procedure ⟨g.size, g.size + 1⟩ }

/-- A graph with the boundary of its root alone. -/
def ofRoot (root : String) : FlowGraph :=
  FlowGraph.addProcedure ⟨root, #[], #[], ∅, [], #[], false⟩ root

/-- The boundary of the root: the first two nodes of the graph. -/
def rootBoundary (g : FlowGraph) : Boundary := (g.boundary? g.root).getD ⟨0, 1⟩

/-- Where control starts. -/
def start (g : FlowGraph) : Nat := g.rootBoundary.start

/-- Where control ends. -/
def stop (g : FlowGraph) : Nat := g.rootBoundary.stop

/-- The graph with an edge, which it may have already. -/
def addEdge (g : FlowGraph) (source target : Nat) : FlowGraph :=
  if ⟨source, target⟩ ∈ g.edges then g
  else { g with edges := g.edges.push ⟨source, target⟩, settled := false }

/-- The graph in which a position is mapped to a node, unless it is mapped to one already. -/
def mapPosition (g : FlowGraph) (procedure : String) (index node : Nat) : FlowGraph :=
  match g.position? procedure index with
  | some _ => g
  | none => { g with positions := g.positions ++ [((procedure, index), node)] }

/-- The graph with a node for the instruction at a position, which it may have already. -/
def placeInstr (g : FlowGraph) (procedure : String) (index : Nat) (i : Instr) : FlowGraph :=
  match g.position? procedure index with
  | some _ => g
  | none => (g.addNode procedure (.instr i)).mapPosition procedure index g.size

/-! ### Settling a graph -/

/-- The nodes without a way out, each with the stop of its procedure. -/
def dangling (g : FlowGraph) : List Edge :=
  g.nodes.toList.zipIdx.filterMap fun (n, k) =>
    if n.isStop || g.edges.any fun e => e.source == k then none
    else (g.boundary? n.procedure).map fun b => ⟨k, b.stop⟩

/-- Enters an edge in the neighbours of its two ends. -/
def Neighbours.join (t : Array Neighbours) (e : Edge) : Array Neighbours :=
  (t.modify e.source fun n => { n with after := n.after ++ [e.target] }).modify e.target
    fun n => { n with before := n.before ++ [e.source] }

/-- The graph in which every node has a way out, with the neighbours of all nodes. -/
def settle (g : FlowGraph) : FlowGraph :=
  let g := g.dangling.foldl (fun g e => g.addEdge e.source e.target) g
  { g with
    neighbours := g.edges.foldl Neighbours.join (Array.replicate g.size {})
    settled := true }

end FlowGraph

end ParLoop
