import ParLoop.Descriptor
import ParLoop.Flow.Solve

/-!
# Loop dependence

What is known of the variables at each node. The counter of the loop starts out positive and
different in each iteration; an assignment describes its variable anew, a declaration forgets all
but itself.
-/

namespace ParLoop.Flow

/-- The descriptors after a variable has got a value at a node. -/
def redefine (facts : OrderedSet Descriptor) (name : String) (node : Nat) (kinds : Kinds) :
    OrderedSet Descriptor :=
  ((facts.filter fun d => d.name ≠ name).insert ⟨name, .definition node⟩).union
    (.ofList (kinds.toList.map fun k => ⟨name, .kind k⟩))

/-- The descriptors after a node. -/
def describe (node : Nat) (n : Node) (facts : OrderedSet Descriptor) : OrderedSet Descriptor :=
  match n.kind with
  | .instr (.declare x) => redefine facts x node ∅
  | .instr (.assign (.var x) value) => redefine facts x node (Descriptor.evaluate facts value)
  | _ => facts

/-- What is known of the counter where the loop body starts. -/
def counterFacts (counter : String) (start : Nat) : OrderedSet Descriptor :=
  redefine ∅ counter start (.ofList [.positive, .notZero, .loopDependent])

/-- What is known of the variables of a loop over a counter. -/
def dependence (counter : String) : Analysis Descriptor where
  name := "loop-dependence"
  seed := .nodes
  subject d := some d.name
  merge := Descriptor.merge
  extremal g := counterFacts counter g.start
  transfer _ := describe

end ParLoop.Flow
