import ParLoop.OrderedSet

/-!
# Call sites

The calls found while the flow graph of a loop is built.
-/

namespace ParLoop

/-- A call and the nodes that join it to the callee. -/
structure CallSite where
  caller : String
  callee : String
  /-- The node of the call itself. -/
  node : Nat
  /-- The node that leads to the start of the callee. -/
  enter : Nat
  /-- The node that leads back from the stop of the callee. -/
  leave : Nat
deriving DecidableEq

/-- The calls made from a root, in the order in which they were found. -/
structure CallGraph where
  root : String
  sites : List CallSite := []
deriving DecidableEq

namespace CallGraph

/-- The calls with one more. -/
def add (c : CallGraph) (site : CallSite) : CallGraph := { c with sites := c.sites ++ [site] }

/-- The calls of a procedure. -/
def callersOf (c : CallGraph) (procedure : String) : List CallSite :=
  c.sites.filter fun s => s.callee == procedure

/-- The root and every procedure called. -/
def reachable (c : CallGraph) : OrderedSet String := .ofList (c.root :: c.sites.map (·.callee))

end CallGraph

end ParLoop
