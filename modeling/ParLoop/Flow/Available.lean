import ParLoop.Flow.Solve

/-!
# Available computations

Which computations, on every path to a node, were made at one and the same node and have their
result still in a variable. A call may change anything that is visible outside, so nothing is
available after it.
-/

namespace ParLoop

open Std

/-- A variable holds the result of a computation made at a node. -/
structure Computation where
  node : Nat
  target : String
  value : Expr
deriving DecidableEq

namespace Computation

instance : Ord Computation :=
  ⟨compareLex (compareOn node) (compareLex (compareOn target) (compareOn value))⟩

instance : TransOrd Computation :=
  inferInstanceAs
    (TransCmp (compareLex (compareOn node) (compareLex (compareOn target) (compareOn value))))

instance : LawfulEqOrd Computation :=
  lawfulEqCmp_lex fun a b hn htv => by
    obtain ⟨ht, hv⟩ := Ordering.then_eq_eq.1 htv
    have hn : a.node = b.node := LawfulEqCmp.eq_of_compare hn
    have ht : a.target = b.target := LawfulEqCmp.eq_of_compare ht
    have hv : a.value = b.value := LawfulEqCmp.eq_of_compare hv
    cases a
    cases b
    cases hn
    cases ht
    cases hv
    rfl

end Computation

namespace Flow

/-- The computations that do not concern a variable that gets a new value. -/
def keepOthers (facts : OrderedSet Computation) (name : String) : OrderedSet Computation :=
  facts.filter fun f => f.target ≠ name && !f.value.reads name

/-- The computations available after an instruction at a node. -/
def computeAt (node : Nat) (i : Instr) (facts : OrderedSet Computation) : OrderedSet Computation :=
  if i.hasCall then ∅
  else
    match i with
    | .declare x => keepOthers facts x
    | .assign (.var x) value =>
      let others := keepOthers facts x
      if value.isReusable && !value.reads x then others.insert ⟨node, x, value⟩ else others
    | .assign (.access a _) _ => facts.filter fun f => !f.value.reads a
    | _ => facts

/-- The computations available on every path. -/
def available : Analysis Computation where
  name := "available-expressions"
  subject f := some f.target
  merge := OrderedSet.inter
  extremal _ := ∅
  transfer _ node n facts :=
    match n.kind with
    | .invocation .. => ∅
    | .instr i => computeAt node i facts
    | _ => facts

end Flow

end ParLoop
