import ParLoop.AnalysisError
import ParLoop.Kind

/-!
# Descriptors of variables

A descriptor says one thing of a variable: a kind of its value, or a node that may have given it its
value. From a set of descriptors, `evaluate` finds what is known of an expression; `merge` is what
is known where two paths meet.
-/

namespace ParLoop

open Std

/-- What a descriptor says of its variable. -/
inductive Mark where
  /-- The value has a kind. -/
  | kind (kind : Kind)
  /-- The value was given at a node. -/
  | definition (node : Nat)
deriving DecidableEq

namespace Mark

/-- The place of a mark in the order of marks: kinds, then definitions by their nodes. -/
def rank : Mark → Nat
  | .kind k => k.rank
  | .definition n => 7 + n

theorem rank_injective {a b : Mark} (h : a.rank = b.rank) : a = b := by
  have below : ∀ k : Kind, k.rank < 7 := by intro k; cases k <;> decide
  cases a with
  | kind k =>
    cases b with
    | kind l => rw [Kind.rank_injective h]
    | definition n =>
      have := below k
      simp only [rank] at h
      omega
  | definition n =>
    cases b with
    | kind l =>
      have := below l
      simp only [rank] at h
      omega
    | definition m =>
      simp only [rank] at h
      rw [Nat.add_left_cancel h]

instance : Ord Mark := ⟨compareOn rank⟩

instance : TransOrd Mark := inferInstanceAs (TransCmp (compareOn rank))

instance : LawfulEqOrd Mark where
  compare_self {a} := by simp
  eq_of_compare h := rank_injective (Nat.compare_eq_eq.1 h)

/-- Whether a mark is a definition. -/
def isDefinition : Mark → Bool
  | .definition _ => true
  | .kind _ => false

/-- The node of a definition. -/
def definition? : Mark → Option Nat
  | .definition n => some n
  | .kind _ => none

/-- A mark in words. -/
def text : Mark → String
  | .kind k => k.text
  | .definition n => "def@" ++ nodeName n

end Mark

/-- One thing known of a variable. -/
structure Descriptor where
  name : String
  mark : Mark
deriving DecidableEq

namespace Descriptor

instance : Ord Descriptor := ⟨compareLex (compareOn name) (compareOn mark)⟩

instance : TransOrd Descriptor :=
  inferInstanceAs (TransCmp (compareLex (compareOn name) (compareOn mark)))

instance : LawfulEqOrd Descriptor :=
  lawfulEqCmp_lex fun a b hn hm => by
    have hn : a.name = b.name := LawfulEqCmp.eq_of_compare hn
    have hm : a.mark = b.mark := LawfulEqCmp.eq_of_compare hm
    cases a
    cases b
    cases hn
    cases hm
    rfl

/-- A descriptor in words. -/
def text (d : Descriptor) : String := d.name ++ ": " ++ d.mark.text

/-- The kinds known of a variable. -/
def kindsOf (facts : OrderedSet Descriptor) (name : String) : Kinds :=
  .ofTest fun k => facts.contains ⟨name, .kind k⟩

/-- The nodes that may have given a variable its value. -/
def definitionsOf (facts : OrderedSet Descriptor) (name : String) : OrderedSet Nat :=
  .ofList (facts.toList.filterMap fun d => if d.name = name then d.mark.definition? else none)

/-- What is known where two paths meet: the descriptors of both, but of a variable with several
definitions only these. -/
def merge (stored incoming : OrderedSet Descriptor) : OrderedSet Descriptor :=
  let merged := stored.union incoming
  merged.filter fun d => d.mark.isDefinition || (definitionsOf merged d.name).size ≤ 1

/-- What is known of the value of an expression. -/
def evaluate (facts : OrderedSet Descriptor) : Expr → Kinds
  | .int v => .ofInt v
  | .var x => kindsOf facts x
  | .neg e => (evaluate facts e).negate
  | .paren e => evaluate facts e
  | .binary op l r =>
    let l := evaluate facts l
    let r := evaluate facts r
    match op with
    | .add => l.add r
    | .subtract => l.add r.negate
    | .multiply => l.multiply r
    | .divide => l.divide r
    | .modulo => l.modulo r
    | .generic _ | .compare _ => ∅
  | .access .. | .double _ | .cond .. | .call .. => ∅

/-- Whether the value of an expression is known to change from one iteration to the next. -/
def isLoopDependent (facts : OrderedSet Descriptor) (e : Expr) : Bool :=
  (evaluate facts e).contains .loopDependent

end Descriptor

end ParLoop
