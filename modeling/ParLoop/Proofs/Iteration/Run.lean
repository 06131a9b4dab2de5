import Mathlib.Logic.Function.Basic
import ParLoop.AliasGroup
import ParLoop.Proofs.Descriptor.Evaluate

/-!
# Runs of one iteration

A run of a body of declarations and assignments, over variables and array elements. A name holds a
number and possibly a storage; an element is found by a storage and the values of the indices.

* `Meaning`: integer arithmetic is exact, and all other operators mean something. A computed value
  holds no storage but one of its operands', and elements hold none. `Meaning.integers` is one.
* `World`: a meaning, and what names hold outside of the loop.
* `World.stateAt`: the state of an iteration where control reaches a position. A declaration gives
  its name a storage of the iteration's own.
* `World.Touches`, `World.Writes`: the elements that an iteration accesses. Every part of an
  expression counts, whether a conditional needs it or not.
-/

namespace ParLoop

/-- A storage of array elements. -/
inductive Storage where
  /-- A storage that exists outside of the loop. -/
  | outer (id : Nat)
  /-- The storage declared at a position in the iteration with a value of the counter. -/
  | own (counter : Int) (position : Nat)
deriving DecidableEq

/-- What a name holds. -/
structure Value where
  number : Int
  storage : Option Storage

/-- The place of an array element. -/
structure Location where
  storage : Storage
  indices : List Int
deriving DecidableEq

/-- What operators mean. -/
structure Meaning where
  negate : Value → Value
  operator : BinaryOp → Value → Value → Value
  conditional : Value → Value → Value → Value
  double : Double → Int
  /-- The element of a name without storage. -/
  missing : Int
  division : Kinds.Division
  number_negate : ∀ v, (negate v).number = -v.number
  number_add : ∀ u v, (operator .add u v).number = u.number + v.number
  number_subtract : ∀ u v, (operator .subtract u v).number = u.number - v.number
  number_multiply : ∀ u v, (operator .multiply u v).number = u.number * v.number
  number_divide : ∀ u v, (operator .divide u v).number = division.quotient u.number v.number
  number_modulo : ∀ u v, (operator .modulo u v).number = division.remainder u.number v.number
  storage_negate : ∀ v s, (negate v).storage = some s → v.storage = some s
  storage_operator : ∀ op u v s, (operator op u v).storage = some s →
    u.storage = some s ∨ v.storage = some s
  storage_conditional : ∀ u v w s, (conditional u v w).storage = some s →
    u.storage = some s ∨ v.storage = some s ∨ w.storage = some s

/-- Plain integers: division truncates, a comparison is one or zero, a conditional is one of its
branches, and other operators are zero. -/
def Meaning.integers : Meaning where
  negate v := ⟨-v.number, none⟩
  operator op u v := ⟨match op with
    | .add => u.number + v.number
    | .subtract => u.number - v.number
    | .multiply => u.number * v.number
    | .divide => u.number.tdiv v.number
    | .modulo => u.number.tmod v.number
    | .compare .eq => if u.number = v.number then 1 else 0
    | .compare .ne => if u.number = v.number then 0 else 1
    | .compare .lt => if u.number < v.number then 1 else 0
    | .compare .le => if u.number ≤ v.number then 1 else 0
    | .compare .gt => if v.number < u.number then 1 else 0
    | .compare .ge => if v.number ≤ u.number then 1 else 0
    | .generic _ => 0, none⟩
  conditional u v w := if u.number = 0 then w else v
  double _ := 0
  missing := 0
  division := .truncated
  number_negate _ := rfl
  number_add _ _ := rfl
  number_subtract _ _ := rfl
  number_multiply _ _ := rfl
  number_divide _ _ := rfl
  number_modulo _ _ := rfl
  storage_negate _ _ h := by cases h
  storage_operator _ _ _ _ h := by cases h
  storage_conditional u v w s h := by
    split at h
    · exact Or.inr (Or.inr h)
    · exact Or.inr (Or.inl h)

/-- What names hold, and the numbers in all elements. -/
structure State where
  vars : String → Value
  elements : Location → Int

/-- The state in which a name holds a value. -/
def State.hold (s : State) (x : String) (v : Value) : State :=
  ⟨Function.update s.vars x v, s.elements⟩

theorem State.vars_hold (s : State) (x y : String) (v : Value) :
    (s.hold x v).vars y = if y = x then v else s.vars y :=
  Function.update_apply s.vars x v y

/-- The state with a number in an element. -/
def State.store (s : State) (l : Location) (n : Int) : State :=
  ⟨s.vars, Function.update s.elements l n⟩

namespace Meaning

variable (m : Meaning)

mutual

/-- The value of an expression that calls nothing. -/
def eval (s : State) : Expr → Value
  | .var x => s.vars x
  | .access a is =>
    match (s.vars a).storage with
    | some storage => ⟨s.elements ⟨storage, numbers s is⟩, none⟩
    | none => ⟨m.missing, none⟩
  | .int n => ⟨n, none⟩
  | .double d => ⟨m.double d, none⟩
  | .neg e => m.negate (eval s e)
  | .binary op l r => m.operator op (eval s l) (eval s r)
  | .paren e => eval s e
  | .cond c t f => m.conditional (eval s c) (eval s t) (eval s f)
  | .call _ _ => ⟨m.missing, none⟩

/-- The numbers of some expressions. -/
def numbers (s : State) : List Expr → List Int
  | [] => []
  | e :: es => (eval s e).number :: numbers s es

end

theorem numbers_eq (s : State) (es : List Expr) :
    m.numbers s es = es.map fun e => (m.eval s e).number := by
  induction es with
  | nil => rfl
  | cons e es ih => simp [numbers, ih]

/-- The element that an access is to, if its name holds a storage. -/
def locate (s : State) : Expr → Option Location
  | .access a is => (s.vars a).storage.map fun storage => ⟨storage, m.numbers s is⟩
  | _ => none

/-- The numbers of expressions in a state. -/
def valuation (s : State) : Descriptor.Valuation m.division where
  value e := (m.eval s e).number
  int _ := rfl
  neg _ := m.number_negate _
  paren _ := rfl
  add _ _ := m.number_add _ _
  subtract _ _ := m.number_subtract _ _
  multiply _ _ := m.number_multiply _ _
  divide _ _ := m.number_divide _ _
  modulo _ _ := m.number_modulo _ _

/-- The storage of a value is held by a variable of the expression. -/
theorem storage_eval (s : State) {e : Expr} {storage : Storage}
    (h : (m.eval s e).storage = some storage) :
    ∃ x ∈ e.occurrences, (s.vars x).storage = some storage := by
  induction e with
  | var x => exact ⟨x, by simp, h⟩
  | int n => cases h
  | double d => cases h
  | call f es => cases h
  | access a is =>
    rw [eval] at h
    split at h <;> cases h
  | paren e ih => simpa using ih h
  | neg e ih => simpa using ih (m.storage_negate _ _ h)
  | binary op l r ihl ihr =>
    rcases m.storage_operator _ _ _ _ h with h | h
    · obtain ⟨x, hx, hs⟩ := ihl h
      exact ⟨x, by simp [hx], hs⟩
    · obtain ⟨x, hx, hs⟩ := ihr h
      exact ⟨x, by simp [hx], hs⟩
  | cond c t f ihc iht ihf =>
    have hmem : ∀ e' ∈ (Expr.cond c t f).children, ∀ x ∈ e'.occurrences,
        x ∈ (Expr.cond c t f).occurrences :=
      fun e' he x hx => Expr.mem_occurrences_of_mem_children he hx
    rcases m.storage_conditional _ _ _ _ h with h | h | h
    · obtain ⟨x, hx, hs⟩ := ihc h
      exact ⟨x, hmem c (by simp) x hx, hs⟩
    · obtain ⟨x, hx, hs⟩ := iht h
      exact ⟨x, hmem t (by simp) x hx, hs⟩
    · obtain ⟨x, hx, hs⟩ := ihf h
      exact ⟨x, hmem f (by simp) x hx, hs⟩

end Meaning

/-- What is particular to an iteration: the counter, the numbers that declared names start with, and
the elements as the iteration finds them. -/
structure Iteration where
  counter : Int
  fresh : Nat → Int
  elements : Location → Int

/-- The state after the instruction at a position. -/
def Meaning.step (m : Meaning) (it : Iteration) (position : Nat) (s : State) : Instr → State
  | .declare x => s.hold x ⟨it.fresh position, some (.own it.counter position)⟩
  | .assign (.var x) value => s.hold x (m.eval s value)
  | .assign (.access a is) value =>
    match m.locate s (.access a is) with
    | some l => s.store l (m.eval s value).number
    | none => s
  | _ => s

/-- A name holds what it held, unless an instruction defines it. -/
theorem Meaning.vars_step (m : Meaning) (it : Iteration) (k : Nat) (s : State) {i : Instr}
    {x : String} (h : i.defined? ≠ some x) : (m.step it k s i).vars x = s.vars x := by
  cases i with
  | declare y =>
    rw [step, State.vars_hold, if_neg]
    rintro rfl
    exact h rfl
  | assign t v =>
    cases t with
    | var y =>
      rw [step, State.vars_hold, if_neg]
      rintro rfl
      exact h rfl
    | access a is =>
      rw [step]
      split <;> rfl
    | _ => rfl
  | _ => rfl

/-- Whether an instruction is a declaration or an assignment, to a variable or to an element, that
calls nothing. -/
def Instr.isPlain : Instr → Bool
  | .declare _ => true
  | .assign (.var x) value => !(Instr.assign (.var x) value).hasCall
  | .assign (.access a is) value => !(Instr.assign (.access a is) value).hasCall
  | _ => false

theorem Instr.hasCall_of_isPlain {i : Instr} (h : i.isPlain = true) : i.hasCall = false := by
  unfold isPlain at h
  split at h
  · rfl
  · simpa using h
  · simpa using h
  · cases h

/-- What operators mean, and what names hold outside of the loop. -/
structure World where
  meaning : Meaning
  outside : String → Value

namespace World

variable (w : World) (p : Program) (it : Iteration)

/-- The state of an iteration where control reaches a position of the loop body. -/
def stateAt : Nat → State
  | 0 => State.hold ⟨w.outside, it.elements⟩ p.counter
      { w.outside p.counter with number := it.counter }
  | k + 1 =>
    match p.body[k]? with
    | some i => w.meaning.step it k (stateAt k) i
    | none => stateAt k

/-- An iteration accesses an element. -/
def Touches (l : Location) : Prop :=
  ∃ k i e, p.body[k]? = some i ∧ e ∈ i.expressions.flatMap Expr.accesses ∧
    w.meaning.locate (w.stateAt p it k) e = some l

/-- An iteration writes an element. -/
def Writes (l : Location) : Prop :=
  ∃ k a is value, p.body[k]? = some (.assign (.access a is) value) ∧
    w.meaning.locate (w.stateAt p it k) (.access a is) = some l

/-- Outside of the loop, only members of alias groups hold storages, and members of different groups
hold different ones. -/
structure Separates : Prop where
  held : ∀ x s, (w.outside x).storage = some s →
    (∃ id, s = .outer id) ∧ ∃ g ∈ AliasGroup.ofProgram p, x ∈ g.members
  apart : ∀ g ∈ AliasGroup.ofProgram p, ∀ g' ∈ AliasGroup.ofProgram p, ∀ x ∈ g.members,
    ∀ y ∈ g'.members, ∀ s, (w.outside x).storage = some s → (w.outside y).storage = some s → g = g'

theorem stateAt_succ {k : Nat} {i : Instr} (h : p.body[k]? = some i) :
    w.stateAt p it (k + 1) = w.meaning.step it k (w.stateAt p it k) i := by
  rw [stateAt, h]

end World

end ParLoop
