import ParLoop.FlowGraph.Basic

/-!
# Flow graphs as DOT text

One cluster for each procedure of the graph, in the order of their names, then the edges.
-/

namespace ParLoop.FlowGraph

/-- A text between quotation marks: backslashes and quotation marks are escaped. -/
def dotEscape (s : String) : String :=
  String.ofList (s.toList.flatMap fun c => if c = '\\' ∨ c = '"' then ['\\', c] else [c])

/-- The lines of the nodes of a procedure. -/
def dotCluster (g : FlowGraph) (procedure : String) (index : Nat) : List String :=
  ["  subgraph cluster_" ++ toString index ++ " \x7b",
    "    label=\"" ++ dotEscape procedure ++ "\";"] ++
  (g.nodes.toList.zipIdx.filter fun (n, _) => n.procedure == procedure).map (fun (n, k) =>
    "    " ++ nodeName k ++ " [label=\"" ++ dotEscape n.text ++ "\"];") ++
  ["  \x7d"]

/-- A flow graph as DOT text. -/
def dot (g : FlowGraph) : String :=
  let clusters := g.boundaries.names.zipIdx.flatMap fun (p, index) => g.dotCluster p index
  let edges := g.edges.toList.map fun e =>
    "  " ++ nodeName e.source ++ " -> " ++ nodeName e.target ++ ";"
  let lines := ["digraph cfg \x7b", "  node [shape=box, fontname=\"monospace\"];"] ++ clusters ++
    edges ++ ["\x7d"]
  String.join (lines.map (· ++ "\n"))

end ParLoop.FlowGraph
