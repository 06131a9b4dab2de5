import Mathlib.Logic.Function.Basic
import ParLoop.Proofs.Expr.Subterms
import ParLoop.Proofs.FlowGraph.Body

/-!
# Runs of a body

Step by step runs of a body over scalars and arrays. A `Semantics` leaves open what values and array
stores are and what operators, elements and calls do. It is given by how computations are put
together, so that operands may be evaluated in any order or not at all; all that is asked of an
operator is that it makes a constant of constants.

* `Execution.step`, `Execution.run`: runs of a body, given what each instruction makes of a state;
* `Semantics.eval`: the computation of an expression, which may read and change the arrays;
* `Semantics.execute`, `Semantics.run`: what an instruction makes of a state, and runs by that;
* `LockStep`: two bodies of one length whose runs agree after every number of steps.
-/

namespace ParLoop

/-- A computation of a value, which may read and change the arrays. -/
abbrev Action (V A : Type) := A → V × A

/-- The computation that yields a value and leaves the arrays as they are. -/
def Action.const {V A : Type} (v : V) : Action V A := fun arrays => (v, arrays)

/-- A meaning of operators, elements and calls. A call has no access to the scalars of the body. -/
structure Semantics (V A : Type) where
  integer : Int → V
  double : Double → V
  negate : Action V A → Action V A
  operator : BinaryOp → Action V A → Action V A → Action V A
  conditional : Action V A → Action V A → Action V A → Action V A
  /-- Reads an element, given the name of the array and what it holds. -/
  element : String → V → List (Action V A) → Action V A
  call : String → List (Action V A) → Action V A
  /-- Writes an element. -/
  store : String → V → List (Action V A) → Action V A → A → A
  /-- What a declaration gives its name. -/
  fresh : String → V
  /-- Whether a condition holds. -/
  holds : V → Bool
  negate_const : ∀ v, ∃ u, negate (.const v) = .const u
  operator_const : ∀ op v w, ∃ u, operator op (.const v) (.const w) = .const u
  conditional_const : ∀ v w z, ∃ u, conditional (.const v) (.const w) (.const z) = .const u

/-- Sums, differences and products; other operators are zero. -/
def Semantics.arithmetic : BinaryOp → Int → Int → Int
  | .add, u, v => u + v
  | .subtract, u, v => u - v
  | .multiply, u, v => u * v
  | _, _, _ => 0

/-- Integers, evaluated from left to right, with arrays that hold integers under names and indices.
Calls do nothing. -/
def Semantics.integers : Semantics Int (String → List Int → Int) where
  integer n := n
  double _ := 0
  negate x arrays := (-(x arrays).1, (x arrays).2)
  operator op x y arrays :=
    (arithmetic op (x arrays).1 (y (x arrays).2).1, (y (x arrays).2).2)
  conditional x y z arrays := if (x arrays).1 = 0 then z (x arrays).2 else y (x arrays).2
  element a _ is arrays := (arrays a (is.map fun x => (x arrays).1), arrays)
  call _ _ arrays := (0, arrays)
  store a _ is x arrays := Function.update arrays a
    (Function.update (arrays a) (is.map fun x => (x arrays).1) (x arrays).1)
  fresh _ := 0
  holds n := n ≠ 0
  negate_const v := ⟨-v, rfl⟩
  operator_const op v w := ⟨arithmetic op v w, rfl⟩
  conditional_const v w z := by
    by_cases h : v = 0
    · exact ⟨z, funext fun _ => by simp [Action.const, h]⟩
    · exact ⟨w, funext fun _ => by simp [Action.const, h]⟩

/-- A state of a run. -/
structure Configuration (V A : Type) where
  position : Nat
  scalars : String → V
  arrays : A

/-- The position of a label, or the end of the body. -/
def labelAt (body : List Instr) (l : String) : Nat := body.findIdx fun i => i = .label l

theorem getElem?_labelAt {body : List Instr} {l : String} (h : .label l ∈ body) :
    body[labelAt body l]? = some (.label l) := by
  have hlt : labelAt body l < body.length := List.findIdx_lt_length_of_exists ⟨_, h, by simp⟩
  rw [List.getElem?_eq_getElem hlt]
  exact congrArg some (of_decide_eq_true (List.findIdx_getElem (w := hlt)))

/-- What an instruction makes of a state, given where labels are. -/
abbrev Execution (V A : Type) := (String → Nat) → Configuration V A → Instr → Configuration V A

namespace Execution

variable {V A : Type}

/-- One step of a run. It stays where it is once the end is reached. -/
def step (ex : Execution V A) (body : List Instr) (c : Configuration V A) : Configuration V A :=
  match body[c.position]? with
  | some i => ex (labelAt body) c i
  | none => c

/-- A number of steps. -/
def run (ex : Execution V A) (body : List Instr) (c : Configuration V A) : Nat → Configuration V A
  | 0 => c
  | n + 1 => ex.step body (ex.run body c n)

/-- Control goes on to the next instruction or to the label of a jump. -/
def Follows (ex : Execution V A) : Prop :=
  ∀ target c i, i.fallsThrough = true ∧ (ex target c i).position = c.position + 1 ∨
    ∃ l, i.jumpTarget? = some l ∧ (ex target c i).position = target l

/-- Where a step leads, the position may be reached in the body. -/
theorem Follows.continues {ex : Execution V A} (h : ex.Follows) {body : List Instr}
    {c : Configuration V A} {i : Instr} (hi : body[c.position]? = some i)
    (htarget : ∀ l, i.jumpTarget? = some l → .label l ∈ body) :
    Continues body c.position (ex (labelAt body) c i).position := by
  refine ⟨i, hi, ?_⟩
  rcases h (labelAt body) c i with hnext | ⟨l, hl, hposition⟩
  · exact Or.inl hnext
  · exact Or.inr ⟨l, hl, by rw [hposition, getElem?_labelAt (htarget l hl)]⟩

end Execution

namespace Semantics

variable {V A : Type} (sem : Semantics V A)

mutual

/-- The computation of an expression. -/
def eval (scalars : String → V) : Expr → Action V A
  | .var x => .const (scalars x)
  | .access a is => sem.element a (scalars a) (evalList scalars is)
  | .int n => .const (sem.integer n)
  | .double d => .const (sem.double d)
  | .neg e => sem.negate (eval scalars e)
  | .binary op l r => sem.operator op (eval scalars l) (eval scalars r)
  | .paren e => eval scalars e
  | .cond c t f => sem.conditional (eval scalars c) (eval scalars t) (eval scalars f)
  | .call p es => sem.call p (evalList scalars es)

/-- The computations of some expressions. -/
def evalList (scalars : String → V) : List Expr → List (Action V A)
  | [] => []
  | e :: es => eval scalars e :: evalList scalars es

end

theorem evalList_eq (scalars : String → V) (es : List Expr) :
    sem.evalList scalars es = es.map (sem.eval scalars) := by
  induction es with
  | nil => rfl
  | cons e es ih => simp [evalList, ih]

/-- The state after an instruction, given where labels are. -/
def execute (target : String → Nat) (c : Configuration V A) : Instr → Configuration V A
  | .assign (.var x) value =>
    let r := sem.eval c.scalars value c.arrays
    ⟨c.position + 1, Function.update c.scalars x r.1, r.2⟩
  | .assign (.access a is) value =>
    ⟨c.position + 1, c.scalars, sem.store a (c.scalars a) (is.map (sem.eval c.scalars))
      (sem.eval c.scalars value) c.arrays⟩
  | .assign _ value => ⟨c.position + 1, c.scalars, (sem.eval c.scalars value c.arrays).2⟩
  | .declare x => ⟨c.position + 1, Function.update c.scalars x (sem.fresh x), c.arrays⟩
  | .label _ => { c with position := c.position + 1 }
  | .jump l => { c with position := target l }
  | .branch condition l =>
    let r := sem.eval c.scalars condition c.arrays
    ⟨if sem.holds r.1 then target l else c.position + 1, c.scalars, r.2⟩
  | .call p es =>
    ⟨c.position + 1, c.scalars, (sem.call p (es.map (sem.eval c.scalars)) c.arrays).2⟩

/-- The state of a run after a number of steps. -/
abbrev run (body : List Instr) (c : Configuration V A) (n : Nat) : Configuration V A :=
  Execution.run sem.execute body c n

/-! ### What a computation depends on -/

variable {scalars scalars' : String → V}

/-- The computation of an expression depends only on the names that it reads. -/
theorem eval_congr {e : Expr}
    (h : ∀ x, e.reads x = true → scalars x = scalars' x) :
    sem.eval scalars e = sem.eval scalars' e := by
  have hlist : ∀ es : List Expr, (∀ e ∈ es, sem.eval scalars e = sem.eval scalars' e) →
      sem.evalList scalars es = sem.evalList scalars' es := by
    intro es hes
    rw [evalList_eq, evalList_eq]
    exact List.map_congr_left hes
  have hchild : ∀ {e c : Expr}, c ∈ e.children → (∀ x, e.reads x = true → scalars x = scalars' x) →
      ∀ x, c.reads x = true → scalars x = scalars' x :=
    fun hc h x hx => h x (Expr.reads_of_mem_children hc hx)
  induction e with
  | var x => rw [eval, eval, h x (by simp [Expr.reads, Expr.subterms, Expr.mentioned?])]
  | int n => rfl
  | double d => rfl
  | access a is ih =>
    rw [eval, eval, h a (by simp [Expr.reads, Expr.subterms, Expr.mentioned?]),
      hlist is fun t ht => ih t ht (hchild (e := .access a is) ht h)]
  | neg e ih => rw [eval, eval, ih (hchild (by simp) h)]
  | binary op l r ihl ihr =>
    rw [eval, eval, ihl (hchild (by simp) h),
      ihr (hchild (by simp) h)]
  | paren e ih => rw [eval, eval, ih (hchild (by simp) h)]
  | cond c t f ihc iht ihf =>
    rw [eval, eval, ihc (hchild (by simp) h),
      iht (hchild (by simp) h), ihf (hchild (by simp) h)]
  | call p es ih => rw [eval, eval, hlist es fun t ht => ih t ht (hchild (e := .call p es) ht h)]

/-- An expression without calls and elements is a constant. -/
theorem eval_const {e : Expr} (hcall : e.hasCall = false) (haccess : e.hasAccess = false) :
    ∃ v, sem.eval scalars e = .const v := by
  induction e with
  | var x => exact ⟨_, rfl⟩
  | int n => exact ⟨_, rfl⟩
  | double d => exact ⟨_, rfl⟩
  | access a is => simp [Expr.hasAccess, Expr.subterms, Expr.accessedArray?] at haccess
  | call p es => simp [Expr.hasCall, Expr.subterms, Expr.calledProcedure?] at hcall
  | neg e ih =>
    obtain ⟨v, hv⟩ := ih (Expr.hasCall_of_mem_children hcall (by simp))
      (Expr.hasAccess_of_mem_children haccess (by simp))
    rw [eval, hv]
    exact sem.negate_const v
  | paren e ih =>
    exact ih (Expr.hasCall_of_mem_children hcall (by simp))
      (Expr.hasAccess_of_mem_children haccess (by simp))
  | binary op l r ihl ihr =>
    obtain ⟨v, hv⟩ := ihl (Expr.hasCall_of_mem_children hcall (by simp))
      (Expr.hasAccess_of_mem_children haccess (by simp))
    obtain ⟨w, hw⟩ := ihr (Expr.hasCall_of_mem_children hcall (by simp))
      (Expr.hasAccess_of_mem_children haccess (by simp))
    rw [eval, hv, hw]
    exact sem.operator_const op v w
  | cond c t f ihc iht ihf =>
    obtain ⟨v, hv⟩ := ihc (Expr.hasCall_of_mem_children hcall (by simp))
      (Expr.hasAccess_of_mem_children haccess (by simp))
    obtain ⟨w, hw⟩ := iht (Expr.hasCall_of_mem_children hcall (by simp))
      (Expr.hasAccess_of_mem_children haccess (by simp))
    obtain ⟨z, hz⟩ := ihf (Expr.hasCall_of_mem_children hcall (by simp))
      (Expr.hasAccess_of_mem_children haccess (by simp))
    rw [eval, hv, hw, hz]
    exact sem.conditional_const v w z

/-- Variables may be read elsewhere, where the same value is found. -/
theorem eval_substitute {f : String → Option Expr} {e : Expr}
    (h : ∀ x t, f x = some t → sem.eval scalars t = .const (scalars x)) :
    sem.eval scalars (e.substitute f) = sem.eval scalars e := by
  have hlist : ∀ es : List Expr,
      (∀ e ∈ es, sem.eval scalars (e.substitute f) = sem.eval scalars e) →
      (es.map (Expr.substitute f)).map (sem.eval scalars) = es.map (sem.eval scalars) := by
    intro es hes
    rw [List.map_map]
    exact List.map_congr_left hes
  induction e with
  | var x =>
    rw [Expr.substitute]
    cases hx : f x with
    | none => rfl
    | some t => exact h x t hx
  | int n => rfl
  | double d => rfl
  | access a is ih =>
    rw [Expr.substitute, eval, eval, Expr.substituteList_eq, evalList_eq, evalList_eq, hlist is ih]
  | neg e ih => rw [Expr.substitute, eval, eval, ih]
  | binary op l r ihl ihr => rw [Expr.substitute, eval, eval, ihl, ihr]
  | paren e ih => rw [Expr.substitute, eval, eval, ih]
  | cond c t f ihc iht ihf => rw [Expr.substitute, eval, eval, ihc, iht, ihf]
  | call p es ih =>
    rw [Expr.substitute, eval, eval, Expr.substituteList_eq, evalList_eq, evalList_eq, hlist es ih]

/-- An instruction may read its variables elsewhere, where the same values are found. -/
theorem execute_substitute {f : String → Option Expr} (target : String → Nat)
    (c : Configuration V A)
    (h : ∀ x t, f x = some t → sem.eval c.scalars t = .const (c.scalars x)) (i : Instr) :
    sem.execute target c (i.substitute f) = sem.execute target c i := by
  have heval : ∀ e : Expr, sem.eval c.scalars (e.substitute f) = sem.eval c.scalars e :=
    fun e => sem.eval_substitute h
  have hmap : ∀ es : List Expr, (es.map (Expr.substitute f)).map (sem.eval c.scalars) =
      es.map (sem.eval c.scalars) := by
    intro es
    rw [List.map_map]
    exact List.map_congr_left fun e _ => heval e
  cases i with
  | assign t v =>
    cases t with
    | access a is =>
      simp only [Instr.substitute, Expr.substitute, execute, Expr.substituteList_eq, hmap, heval]
    | _ => simp only [Instr.substitute, execute, heval]
  | branch condition l => simp only [Instr.substitute, execute, heval]
  | call p es => simp only [Instr.substitute, execute, hmap]
  | _ => rfl

theorem follows_execute : Execution.Follows sem.execute := by
  intro target c i
  cases i with
  | jump l => exact Or.inr ⟨l, rfl, rfl⟩
  | branch condition l =>
    rw [execute]
    dsimp only
    split
    · exact Or.inr ⟨l, rfl, rfl⟩
    · exact Or.inl ⟨rfl, rfl⟩
  | assign t v => cases t <;> exact Or.inl ⟨rfl, rfl⟩
  | declare x => exact Or.inl ⟨rfl, rfl⟩
  | label l => exact Or.inl ⟨rfl, rfl⟩
  | call p es => exact Or.inl ⟨rfl, rfl⟩

end Semantics

/-! ### Runs that agree -/

/-- Two bodies have the same length, and after every number of steps their runs are at the same
position with the same scalars and arrays. -/
def LockStep (body body' : List Instr) : Prop :=
  body.length = body'.length ∧ ∀ (V A : Type) (sem : Semantics V A) (scalars : String → V)
    (arrays : A) (n : Nat),
      sem.run body ⟨0, scalars, arrays⟩ n = sem.run body' ⟨0, scalars, arrays⟩ n

-- Bodies that compute different values are told apart.
example : ¬ LockStep [.assign (.var "x") (.int 0)] [.assign (.var "x") (.int 1)] := by
  intro h
  have hrun := h.2 _ _ .integers (fun _ => 0) (fun _ _ => 0) 1
  exact absurd (congrArg (fun c => c.scalars "x") hrun) (by cbv)

theorem LockStep.refl (body : List Instr) : LockStep body body :=
  ⟨rfl, fun _ _ _ _ _ _ => rfl⟩

theorem LockStep.trans {b b' b'' : List Instr} (h : LockStep b b') (h' : LockStep b' b'') :
    LockStep b b'' :=
  ⟨h.1.trans h'.1, fun V A sem scalars arrays n =>
    (h.2 V A sem scalars arrays n).trans (h'.2 V A sem scalars arrays n)⟩

end ParLoop
