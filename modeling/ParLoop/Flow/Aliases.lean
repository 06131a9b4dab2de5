import ParLoop.Flow.Solve

/-!
# Storages of names

Which storages a name may denote at each node. Names declared outside the loop start with the
storage of their group; a name declared inside denotes itself until it is assigned another
reference. A computed value may denote anything that its parts denote.
-/

namespace ParLoop

open Std

/-- A name may denote a storage, which is given by an expression. -/
structure Alias where
  source : String
  target : Expr
deriving DecidableEq

namespace Alias

instance : Ord Alias := ⟨compareLex (compareOn source) (compareOn target)⟩

instance : TransOrd Alias :=
  inferInstanceAs (TransCmp (compareLex (compareOn source) (compareOn target)))

instance : LawfulEqOrd Alias :=
  lawfulEqCmp_lex fun a b hs ht => by
    have hs : a.source = b.source := LawfulEqCmp.eq_of_compare hs
    have ht : a.target = b.target := LawfulEqCmp.eq_of_compare ht
    cases a
    cases b
    cases hs
    cases ht
    rfl

/-- The storages that a name may denote. -/
def targetsOf (facts : OrderedSet Alias) (name : String) : List Expr :=
  (facts.toList.filter fun f => f.source = name).map (·.target)

end Alias

namespace Flow

/-- The facts after a name has been given new storages. -/
def rebind (facts : OrderedSet Alias) (name : String) (targets : List Expr) : OrderedSet Alias :=
  (facts.filter fun f => f.source ≠ name).union (.ofList (targets.map fun t => ⟨name, t⟩))

/-- The storages that a value may denote. A variable of which nothing is known denotes itself. -/
def denoted (facts : OrderedSet Alias) : Expr → List Expr
  | .var x =>
    match Alias.targetsOf facts x with
    | [] => [.var x]
    | known => known
  | value => value.names.toList.flatMap (Alias.targetsOf facts)

/-- The facts after a node. Outside names can be seen in every procedure. -/
def rebindAt (outside : OrderedSet Alias) (root : String) (n : Node) (facts : OrderedSet Alias) :
    OrderedSet Alias :=
  match n.kind with
  | .start => if n.procedure = root then facts else facts.union outside
  | .instr (.declare x) => rebind facts x [.var x]
  | .instr (.assign (.var x) value) => rebind facts x (denoted facts value)
  | _ => facts

/-- The storages of names, given those of the names declared outside the loop. -/
def aliases (outside : OrderedSet Alias) : Analysis Alias where
  name := "alias"
  subject f := some f.source
  merge := OrderedSet.union
  extremal _ := outside
  transfer g _ := rebindAt outside g.root

/-- The storages that a name may denote where control reaches a node. A name without any cannot be
resolved. -/
def aliasesAt (s : Solution Alias) (node : Nat) (name : String) :
    Except AnalysisError (OrderedSet Expr) :=
  match Alias.targetsOf (s.factsAt node) name with
  | [] => .error (.unresolvedAlias name node)
  | targets => .ok (.ofList targets)

end Flow

end ParLoop
