import ParLoop.OrderedSet

/-!
# Kinds of integer values

A `Kind` is something that may be known of a variable: a property of its value, or how its value
changes from one iteration of the loop to the next. `Kinds` are sets of them, on which the
arithmetic operators act.

A set is given by a test on kinds (`Kinds.ofTest`, `mem_ofTest`), so that each operator is a table
with one line per kind.
-/

namespace ParLoop

open Std

/-- Something that may be known of an integer variable. -/
inductive Kind where
  | zero
  | one
  | positive
  | negative
  | notZero
  /-- The value changes from one iteration to the next. -/
  | loopDependent
  /-- The value is the same in every iteration. -/
  | loopIndependent
deriving DecidableEq

namespace Kind

/-- The place of a kind in the order of kinds. -/
def rank : Kind → Nat
  | .zero => 0
  | .one => 1
  | .positive => 2
  | .negative => 3
  | .notZero => 4
  | .loopDependent => 5
  | .loopIndependent => 6

theorem rank_injective {a b : Kind} (h : a.rank = b.rank) : a = b := by
  revert h
  cases a <;> cases b <;> decide

instance : Ord Kind := ⟨compareOn rank⟩

instance : TransOrd Kind := inferInstanceAs (TransCmp (compareOn rank))

instance : LawfulEqOrd Kind where
  compare_self {a} := by simp
  eq_of_compare h := rank_injective (Nat.compare_eq_eq.1 h)

/-- All kinds. -/
def all : List Kind :=
  [.zero, .one, .positive, .negative, .notZero, .loopDependent, .loopIndependent]

theorem mem_all (k : Kind) : k ∈ all := by cases k <;> decide

/-- The kind of the negated value. -/
def opposite : Kind → Kind
  | .positive => .negative
  | .negative => .positive
  | k => k

/-- A kind in words. -/
def text : Kind → String
  | .zero => "zero"
  | .one => "one"
  | .positive => "positive"
  | .negative => "negative"
  | .notZero => "not-zero"
  | .loopDependent => "loop-dependent"
  | .loopIndependent => "loop-independent"

end Kind

/-- What is known of an integer variable. -/
abbrev Kinds := OrderedSet Kind

namespace Kinds

/-- The kinds that pass a test. -/
def ofTest (p : Kind → Bool) : Kinds := (OrderedSet.ofList Kind.all).filter p

@[simp] theorem mem_ofTest {p : Kind → Bool} {k : Kind} : k ∈ ofTest p ↔ p k = true := by
  simp [ofTest, Kind.mem_all]

/-- Whether a kind is in both sets. -/
def both (l r : Kinds) (k : Kind) : Bool := l.contains k && r.contains k

/-- Whether a kind is in one of the sets. -/
def either (l r : Kinds) (k : Kind) : Bool := l.contains k || r.contains k

/-- What is known of a literal. -/
def ofInt (v : Int) : Kinds :=
  ofTest fun
    | .zero => v = 0
    | .one => v = 1
    | .positive => 0 < v
    | .negative => v < 0
    | .notZero => v ≠ 0
    | .loopDependent => false
    | .loopIndependent => true

/-- What is known of a negated value. -/
def negate (s : Kinds) : Kinds := ofTest fun k => s.contains k.opposite

/-- What is known of a sum. -/
def add (l r : Kinds) : Kinds :=
  if .zero ∈ l then r
  else if .zero ∈ r then l
  else
    let sameSign := both l r .positive || both l r .negative
    ofTest fun
      | .positive => both l r .positive
      | .negative => both l r .negative
      | .notZero => sameSign
      | .loopDependent => either l r .loopDependent && (sameSign || either l r .loopIndependent)
      | .loopIndependent => both l r .loopIndependent
      | _ => false

/-- What is known of a product. -/
def multiply (l r : Kinds) : Kinds :=
  if either l r .zero then ofTest fun k => k = .zero
  else if .one ∈ l then r
  else if .one ∈ r then l
  else
    ofTest fun
      | .positive => both l r .positive || both l r .negative
      | .negative => l.contains .positive && r.contains .negative ||
          l.contains .negative && r.contains .positive
      | .notZero => both l r .notZero
      | .loopDependent => both l r .notZero && either l r .loopDependent
      | .loopIndependent => both l r .loopIndependent
      | _ => false

/-- What is known of a quotient. -/
def divide (l r : Kinds) : Kinds :=
  if .one ∈ r ∨ .zero ∈ l then l
  else ofTest fun k => k = .loopIndependent && both l r .loopIndependent

/-- What is known of a remainder. -/
def modulo (l r : Kinds) : Kinds :=
  if .one ∈ r ∨ .zero ∈ l then ofTest fun k => k = .zero
  else ofTest fun k => k = .loopIndependent && both l r .loopIndependent

end Kinds

end ParLoop
