import ParLoop.Flow.Aliases
import ParLoop.Program

/-!
# Groups of arrays that may share storage

The arrays declared outside a loop are put into groups: two arrays that may be the same one are in
one group. `AliasGroup.ofProgram` finds the groups of the arrays that a program reads or writes.
-/

namespace ParLoop

namespace Symbol

/-- Whether a symbol is only ever bound to storage that nothing else can see. -/
def isExclusive (s : Symbol) : Bool :=
  s.visibility != .publicMember && s.rebindings.all fun r => r.value != .reference

/-- Whether two symbols may be bound to the same array. -/
def mayAlias (s t : Symbol) : Bool :=
  if s.rank ≠ t.rank then false
  else if s.element ≠ t.element && (s.element.isValue || t.element.isValue) then false
  else if s.isExclusive && t.isExclusive then
    let some? (v : Visibility) : Bool := s.visibility = v || t.visibility = v
    some? .parameter && !some? .localVariable
  else true

end Symbol

/-- The names that a procedure declares somewhere, as parameters or in its body. -/
def Procedure.declaredNames (f : Procedure) : List String :=
  f.parameters ++ f.body.filterMap fun
    | .declare x => some x
    | _ => none

/-- The names that a procedure reads and declares nowhere. -/
def Procedure.outsideNames (f : Procedure) : OrderedSet String :=
  (OrderedSet.ofList (f.body.flatMap fun i => i.expressions.flatMap fun e => e.names.toList)).filter
    fun x => !f.declaredNames.contains x

/-- The arrays declared outside that the bodies of a program read or write, in the order of their
names. -/
def Program.outsideArrays (p : Program) : List Symbol :=
  let names : OrderedSet String :=
    .ofList ((p.root :: p.procedures.values).flatMap fun f => f.outsideNames.toList)
  (names.toList.filterMap p.symbols.find?).filter Symbol.isArray

/-- Arrays that may share storage. -/
structure AliasGroup where
  members : OrderedSet String
deriving DecidableEq

namespace AliasGroup

/-- The expression that stands for the storage of a group: its first member. -/
def target (g : AliasGroup) : Expr := .var (g.members.toList.headD "")

/-- Puts a symbol into one group with all groups that have a member it may be the same as. -/
def join (groups : List (List Symbol)) (s : Symbol) : List (List Symbol) :=
  let (joined, apart) := groups.partition fun g => g.any s.mayAlias
  apart ++ [joined.flatten ++ [s]]

/-- The groups of the arrays of a program, in the order of their storages. -/
def ofProgram (p : Program) : List AliasGroup :=
  ((p.outsideArrays.foldl join []).map fun g => ⟨.ofList (g.map (·.name))⟩).mergeSort
    fun a b => (compare a.target b.target).isLE

/-- What is known of the storages of outside names: each member denotes the storage of its group. -/
def seeds (groups : List AliasGroup) : OrderedSet Alias :=
  .ofList (groups.flatMap fun g => g.members.toList.map fun x => ⟨x, g.target⟩)

/-- The storage of an outside name. -/
def targetOf? (groups : List AliasGroup) (name : String) : Option Expr :=
  (groups.find? fun g => g.members.contains name).map target

end AliasGroup

end ParLoop
