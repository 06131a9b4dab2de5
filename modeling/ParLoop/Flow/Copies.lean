import ParLoop.Flow.Solve

/-!
# Copies

Which variables, on every path to a node, hold the same value as the variable they were copied from.
A call may assign a variable that is visible outside, so no copy is known after it.
-/

namespace ParLoop

open Std

/-- A variable holds the value of another one. -/
structure Copy where
  target : String
  source : String
deriving DecidableEq

namespace Copy

instance : Ord Copy := ⟨compareLex (compareOn target) (compareOn source)⟩

instance : TransOrd Copy :=
  inferInstanceAs (TransCmp (compareLex (compareOn target) (compareOn source)))

instance : LawfulEqOrd Copy :=
  lawfulEqCmp_lex fun a b ht hs => by
    have ht : a.target = b.target := LawfulEqCmp.eq_of_compare ht
    have hs : a.source = b.source := LawfulEqCmp.eq_of_compare hs
    cases a
    cases b
    cases ht
    cases hs
    rfl

/-- The variables whose value a variable holds. -/
def sourcesOf (facts : OrderedSet Copy) (name : String) : List String :=
  (facts.toList.filter fun f => f.target = name).map (·.source)

end Copy

namespace Flow

/-- The copies that do not concern a variable that gets a new value. -/
def keepApart (facts : OrderedSet Copy) (name : String) : OrderedSet Copy :=
  facts.filter fun f => f.target ≠ name && f.source ≠ name

/-- The copies known after an instruction. -/
def copyAt (i : Instr) (facts : OrderedSet Copy) : OrderedSet Copy :=
  if i.hasCall then ∅
  else
    match i with
    | .declare x => keepApart facts x
    | .assign (.var x) (.var y) =>
      if y = x then keepApart facts x else (keepApart facts x).insert ⟨x, y⟩
    | .assign (.var x) _ => keepApart facts x
    | _ => facts

/-- The copies known on every path. -/
def copies : Analysis Copy where
  name := "copy-propagation"
  subject f := some f.target
  merge := OrderedSet.inter
  extremal _ := ∅
  transfer _ _ n facts :=
    match n.kind with
    | .invocation .. => ∅
    | .instr i => copyAt i facts
    | _ => facts

end Flow

end ParLoop
