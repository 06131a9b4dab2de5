import ParLoop.Proofs.Body.Run

/-!
# Calls that change scalars

Runs of a body in which a call may change the arrays and every scalar that is not the caller's own.
The calls of an instruction are made first, from left to right, the calls in the arguments of a call
before that call. What is left of the instruction is read after the last call.

* `CallSemantics.settle`: the calls of an expression, and what is left to be read after them;
* `CallSemantics.execute`: the execution of an instruction;
* `Instr.readsBehindCall`: the variables that an instruction reads when a call was made.

Variables may be read elsewhere if the same values are found there at first, and the variables read
behind a call are the caller's own (`execute_substitute`).
-/

namespace ParLoop

/-- The scalars and the arrays of a run. -/
structure Store (V A : Type) where
  scalars : String → V
  arrays : A

/-- What is left to be read of an expression when its calls are made. -/
abbrev Reading (V A : Type) := Store V A → V

/-- Reads what is left of some expressions. -/
def Reading.all {V A : Type} (rs : List (Reading V A)) (s : Store V A) : List V := rs.map (· s)

/-- A meaning of operators, elements and calls, in which a call may read and change everything. -/
structure CallSemantics (V A : Type) where
  integer : Int → V
  double : Double → V
  negate : V → V
  operator : BinaryOp → V → V → V
  conditional : V → V → V → V
  /-- Reads an element, given the name of the array and what it holds. -/
  element : String → V → List V → A → V
  call : String → List V → Store V A → V × Store V A
  /-- Writes an element. -/
  store : String → V → List V → V → A → A
  /-- What a declaration gives its name. -/
  fresh : String → V
  /-- Whether a condition holds. -/
  holds : V → Bool

namespace CallSemantics

variable {V A : Type} (sem : CallSemantics V A) (own : List String)

/-- Makes a call. It leaves the scalars alone that are the caller's own. -/
def invoke (p : String) (arguments : List (Reading V A)) : StateM (Store V A) V := fun s =>
  let r := sem.call p (Reading.all arguments s) s
  (r.1, ⟨fun x => if x ∈ own then s.scalars x else r.2.scalars x, r.2.arrays⟩)

mutual

/-- Makes the calls of an expression in evaluation order. -/
def settle : Expr → StateM (Store V A) (Reading V A)
  | .var x => return fun s => s.scalars x
  | .access a is => do
    let is ← settleList is
    return fun s => sem.element a (s.scalars a) (Reading.all is s) s.arrays
  | .int n => return fun _ => sem.integer n
  | .double d => return fun _ => sem.double d
  | .neg e => do
    let e ← settle e
    return fun s => sem.negate (e s)
  | .binary op l r => do
    let l ← settle l
    let r ← settle r
    return fun s => sem.operator op (l s) (r s)
  | .paren e => settle e
  | .cond c t f => do
    let c ← settle c
    let t ← settle t
    let f ← settle f
    return fun s => sem.conditional (c s) (t s) (f s)
  | .call p es => do
    let es ← settleList es
    let v ← sem.invoke own p es
    return fun _ => v

/-- Makes the calls of the expressions of a list. -/
def settleList : List Expr → StateM (Store V A) (List (Reading V A))
  | [] => return []
  | e :: es => do
    let e ← settle e
    let es ← settleList es
    return e :: es

end

/-- Carries an instruction out, and answers whether it jumps. -/
def perform : Instr → StateM (Store V A) Bool
  | .assign (.var x) value => do
    let value ← sem.settle own value
    modify fun s => { s with scalars := Function.update s.scalars x (value s) }
    return false
  | .assign (.access a is) value => do
    let is ← sem.settleList own is
    let value ← sem.settle own value
    modify fun s =>
      { s with arrays := sem.store a (s.scalars a) (Reading.all is s) (value s) s.arrays }
    return false
  | .assign _ value => do
    let _ ← sem.settle own value
    return false
  | .declare x => do
    modify fun s => { s with scalars := Function.update s.scalars x (sem.fresh x) }
    return false
  | .label _ => return false
  | .jump _ => return true
  | .branch condition _ => do
    let condition ← sem.settle own condition
    return sem.holds (condition (← get))
  | .call p es => do
    let es ← sem.settleList own es
    let _ ← sem.invoke own p es
    return false

/-- The execution of the instructions of a body that has some names of its own. -/
def execute : Execution V A := fun target c i =>
  let r := sem.perform own i ⟨c.scalars, c.arrays⟩
  ⟨if r.1 then i.jumpTarget?.elim (c.position + 1) target else c.position + 1,
    r.2.scalars, r.2.arrays⟩

theorem follows_execute : (sem.execute own).Follows := by
  intro target c i
  cases i with
  | jump l => exact Or.inr ⟨l, rfl, rfl⟩
  | branch condition l =>
    by_cases h : (sem.perform own (.branch condition l) ⟨c.scalars, c.arrays⟩).1 = true
    · exact Or.inr ⟨l, rfl, if_pos h⟩
    · exact Or.inl ⟨rfl, if_neg h⟩
  | assign t v => cases t <;> exact Or.inl ⟨rfl, rfl⟩
  | declare x => exact Or.inl ⟨rfl, rfl⟩
  | label l => exact Or.inl ⟨rfl, rfl⟩
  | call p es => exact Or.inl ⟨rfl, rfl⟩

end CallSemantics

/-! ### The order of reads and calls -/

/-- What is of interest in the execution of an instruction. -/
inductive Event where
  | read (x : String)
  | call
deriving DecidableEq

/-- The variables that are read when a call was made; `called` tells whether one was made before. -/
def Event.readsBehind : Bool → List Event → List String
  | _, [] => []
  | called, .read x :: events => (if called then [x] else []) ++ readsBehind called events
  | _, .call :: events => readsBehind true events

namespace Expr

mutual

/-- The variables of an expression that are read after its calls. -/
def readsLeft : Expr → List String
  | .var x => [x]
  | .int _ | .double _ | .call .. => []
  | .access _ is => readsLeftList is
  | .neg e | .paren e => readsLeft e
  | .binary _ l r => readsLeft l ++ readsLeft r
  | .cond c t f => readsLeft c ++ readsLeft t ++ readsLeft f

/-- The variables of some expressions that are read after their calls. -/
def readsLeftList : List Expr → List String
  | [] => []
  | e :: es => readsLeft e ++ readsLeftList es

end

mutual

/-- The calls of an expression, with what is read for their arguments. -/
def callEvents : Expr → List Event
  | .var _ | .int _ | .double _ => []
  | .access _ is => callEventsList is
  | .neg e | .paren e => callEvents e
  | .binary _ l r => callEvents l ++ callEvents r
  | .cond c t f => callEvents c ++ callEvents t ++ callEvents f
  | .call _ es => callEventsList es ++ (readsLeftList es).map .read ++ [.call]

/-- The calls of some expressions, with what is read for their arguments. -/
def callEventsList : List Expr → List Event
  | [] => []
  | e :: es => callEvents e ++ callEventsList es

end

theorem callEvents_eq_nil {e : Expr} (h : e.hasCall = false) : e.callEvents = [] := by
  have hlist : ∀ es : List Expr, (∀ e ∈ es, e.callEvents = []) → callEventsList es = [] := by
    intro es hes
    induction es with
    | nil => rfl
    | cons e es ih =>
      rw [callEventsList, hes e List.mem_cons_self,
        ih fun e he => hes e (List.mem_cons_of_mem _ he)]
      rfl
  induction e with
  | var x => rfl
  | int n => rfl
  | double d => rfl
  | access a is ih => exact hlist is fun e he => ih e he (hasCall_of_mem_children h he)
  | neg e ih => exact ih (hasCall_of_mem_children h (by simp))
  | paren e ih => exact ih (hasCall_of_mem_children h (by simp))
  | binary op l r ihl ihr =>
    rw [callEvents, ihl (hasCall_of_mem_children h (by simp)),
      ihr (hasCall_of_mem_children h (by simp))]
    rfl
  | cond c t f ihc iht ihf =>
    rw [callEvents, ihc (hasCall_of_mem_children h (by simp)),
      iht (hasCall_of_mem_children h (by simp)),
      ihf (hasCall_of_mem_children h (by simp))]
    rfl
  | call p es => simp [hasCall, subterms, calledProcedure?] at h

end Expr

/-- What happens when an instruction is executed. -/
def Instr.events : Instr → List Event
  | .assign (.access _ is) value => Expr.callEventsList is ++ value.callEvents ++
      (Expr.readsLeftList is ++ value.readsLeft).map .read
  | .assign _ value => value.callEvents ++ value.readsLeft.map .read
  | .branch condition _ => condition.callEvents ++ condition.readsLeft.map .read
  | .call p es => (Expr.call p es).callEvents
  | .declare _ | .label _ | .jump _ => []

/-- The variables that an instruction reads when a call was made. -/
def Instr.readsBehindCall (i : Instr) : List String := Event.readsBehind false i.events

-- The argument of the first call is read before it, the other variables are not.
example : (Instr.assign (.var "x") (.binary .add (.var "a") (.binary .add (.call "f" [.var "b"])
    (.call "g" [.var "c"])))).readsBehindCall = ["c", "a"] := by decide

namespace Event

theorem readsBehind_append (called : Bool) (events more : List Event) :
    readsBehind called (events ++ more) =
      readsBehind called events ++ readsBehind (called || events.contains .call) more := by
  induction events generalizing called with
  | nil => simp [readsBehind]
  | cons e events ih => cases e <;> simp [readsBehind, ih]

theorem readsBehind_reads (called : Bool) (xs : List String) :
    readsBehind called (xs.map .read) = if called then xs else [] := by
  induction xs with
  | nil => simp [readsBehind]
  | cons x xs ih => cases called <;> simp_all [readsBehind]

end Event

/-! ### Reading variables elsewhere -/

section Substitute

variable {V A : Type}

/-- A variable may be read elsewhere: another one has the same value. -/
def ReadsSame (φ : String → Option Expr) (s : Store V A) (x : String) : Prop :=
  ∀ t, φ x = some t → ∃ y, t = .var y ∧ s.scalars y = s.scalars x

/-- A variable is a caller's own, and so is the one that is read instead. -/
def ReadsOwn (φ : String → Option Expr) (own : List String) (x : String) : Prop :=
  ∀ t, φ x = some t → ∃ y, t = .var y ∧ x ∈ own ∧ y ∈ own

/-- A store in the course of an instruction that began with another one: the caller's own scalars
are what they were, and all scalars are as long as no call was made. -/
structure Since (own : List String) (s₀ : Store V A) (called : Bool) (s : Store V A) : Prop where
  own_eq : ∀ x ∈ own, s.scalars x = s₀.scalars x
  scalars_eq : called = false → s.scalars = s₀.scalars

/-- Two computations agree: they make the same calls and leave the same store, and their results are
related, if what they read behind a call is the caller's own. -/
def Agree (own : List String) (φ : String → Option Expr) (s₀ : Store V A) (events : List Event)
    {α : Type} (R : α → α → Prop) (m m' : StateM (Store V A) α) : Prop :=
  ∀ called s, Since own s₀ called s → (∀ x ∈ Event.readsBehind called events, ReadsOwn φ own x) →
    R (m s).1 (m' s).1 ∧ (m' s).2 = (m s).2 ∧
      Since own s₀ (called || events.contains .call) (m s).2

/-- What is left to be read agrees wherever some variables may be read elsewhere. -/
def SameReading (φ : String → Option Expr) (xs : List String) {α : Type} (r r' : Store V A → α) :
    Prop :=
  ∀ s, (∀ x ∈ xs, ReadsSame φ s x) → r' s = r s

variable {own : List String} {φ : String → Option Expr} {s₀ s : Store V A} {called : Bool}
  {events more : List Event} {α β : Type} {R : α → α → Prop} {Q : β → β → Prop}

theorem Since.refl (own : List String) (s : Store V A) : Since own s false s :=
  ⟨fun _ _ => rfl, fun _ => rfl⟩

theorem Since.readsSame (h : Since own s₀ called s) {x : String} (h₀ : ReadsSame φ s₀ x)
    (hown : called = true → ReadsOwn φ own x) : ReadsSame φ s x := by
  intro t ht
  obtain ⟨y, hy, heq⟩ := h₀ t ht
  cases called with
  | false => exact ⟨y, hy, by rw [h.scalars_eq rfl, heq]⟩
  | true =>
    obtain ⟨z, hz, hxown, hzown⟩ := hown rfl t ht
    obtain rfl : z = y := Expr.var.inj (hz.symm.trans hy)
    exact ⟨z, hz, by rw [h.own_eq x hxown, h.own_eq z hzown, heq]⟩

/-- The reads of a list of variables, at one time. -/
theorem Since.readsSame_of_mem (h : Since own s₀ called s) (h₀ : ∀ x, ReadsSame φ s₀ x)
    {xs : List String} (hown : ∀ x ∈ Event.readsBehind called (xs.map .read), ReadsOwn φ own x) :
    ∀ x ∈ xs, ReadsSame φ s x := by
  intro x hx
  refine h.readsSame (h₀ x) fun hcalled => hown x ?_
  rw [Event.readsBehind_reads, if_pos hcalled]
  exact hx

namespace Agree

theorem pure {a a' : α} (h : R a a') :
    Agree own φ s₀ [] R (pure a : StateM (Store V A) α) (pure a') := by
  intro called s hs _
  refine ⟨h, rfl, ?_⟩
  rw [List.contains_nil, Bool.or_false]
  exact hs

theorem bind {m m' : StateM (Store V A) α} {f f' : α → StateM (Store V A) β}
    (h : Agree own φ s₀ events R m m')
    (hf : ∀ a a', R a a' → Agree own φ s₀ more Q (f a) (f' a')) :
    Agree own φ s₀ (events ++ more) Q (m >>= f) (m' >>= f') := by
  intro called s hs hown
  rw [Event.readsBehind_append] at hown
  obtain ⟨hR, heq, hsince⟩ := h called s hs fun x hx => hown x (List.mem_append_left _ hx)
  obtain ⟨hQ, heq', hsince'⟩ := hf _ _ hR _ _ hsince fun x hx => hown x (List.mem_append_right _ hx)
  have hrun : (m >>= f) s = f (m s).1 (m s).2 := rfl
  have hrun' : (m' >>= f') s = f' (m' s).1 (m s).2 := by rw [← heq]; rfl
  rw [hrun, hrun']
  refine ⟨hQ, heq', ?_⟩
  rwa [List.contains_append, ← Bool.or_assoc]

/-- The last step of a computation only puts the results together. -/
theorem bind_pure {m m' : StateM (Store V A) α} {f f' : α → β} (h : Agree own φ s₀ events R m m')
    (hf : ∀ a a', R a a' → Q (f a) (f' a')) :
    Agree own φ s₀ events Q (m >>= fun a => Pure.pure (f a))
      (m' >>= fun a => Pure.pure (f' a)) := by
  rw [← List.append_nil events]
  exact h.bind fun a a' haa' => Agree.pure (hf a a' haa')

/-- A computation that ends with reading what is left. -/
theorem bind_read {xs : List String} {m m' : StateM (Store V A) (Store V A → α)}
    (h : Agree own φ s₀ events (SameReading φ xs) m m') (h₀ : ∀ x, ReadsSame φ s₀ x)
    (hown : ∀ x ∈ Event.readsBehind false (events ++ xs.map .read), ReadsOwn φ own x)
    (f : α → StateM (Store V A) β) :
    (m' >>= fun r s => f (r s) s) s₀ = (m >>= fun r s => f (r s) s) s₀ := by
  rw [Event.readsBehind_append] at hown
  obtain ⟨hr, heq, hs⟩ := h false s₀ (.refl _ _)
    fun x hx => hown x (List.mem_append_left _ hx)
  have hread := hr _ (hs.readsSame_of_mem h₀ fun x hx => hown x (List.mem_append_right _ hx))
  show f ((m' s₀).1 (m' s₀).2) (m' s₀).2 = f ((m s₀).1 (m s₀).2) (m s₀).2
  rw [heq, hread]

end Agree

namespace CallSemantics

variable (sem : CallSemantics V A)

theorem agree_invoke (h₀ : ∀ x, ReadsSame φ s₀ x) (p : String) {xs : List String}
    {rs rs' : List (Reading V A)} (h : SameReading φ xs (Reading.all rs) (Reading.all rs')) :
    Agree own φ s₀ (xs.map .read ++ [.call]) Eq (sem.invoke own p rs) (sem.invoke own p rs') := by
  intro called s hs hown
  rw [Event.readsBehind_append] at hown
  have hrs := h s (hs.readsSame_of_mem h₀ fun x hx => hown x (List.mem_append_left _ hx))
  refine ⟨by simp only [invoke, hrs], by simp only [invoke, hrs], fun x hx => ?_, fun hcalled => ?_⟩
  · show (if x ∈ own then s.scalars x else _) = s₀.scalars x
    rw [if_pos hx, hs.own_eq x hx]
  · simp at hcalled

theorem agree_settleList {es : List Expr} (h : ∀ e ∈ es, Agree own φ s₀ e.callEvents
    (SameReading φ e.readsLeft) (sem.settle own e) (sem.settle own (e.substitute φ))) :
    Agree own φ s₀ (Expr.callEventsList es)
      (fun rs rs' => SameReading φ (Expr.readsLeftList es) (Reading.all rs) (Reading.all rs'))
      (sem.settleList own es) (sem.settleList own (es.map (Expr.substitute φ))) := by
  induction es with
  | nil => exact Agree.pure fun _ _ => rfl
  | cons e es ih =>
    rw [List.map_cons, settleList, settleList]
    refine (h e List.mem_cons_self).bind fun r r' hr =>
      (ih fun e he => h e (List.mem_cons_of_mem _ he)).bind_pure fun rs rs' hrs s hs => ?_
    rw [Expr.readsLeftList, List.forall_mem_append] at hs
    show r' s :: Reading.all rs' s = r s :: Reading.all rs s
    rw [hr s hs.1, hrs s hs.2]

/-- The calls of an expression agree with those of the expression that reads its variables
elsewhere. -/
theorem agree_settle (h₀ : ∀ x, ReadsSame φ s₀ x) (e : Expr) :
    Agree own φ s₀ e.callEvents (SameReading φ e.readsLeft) (sem.settle own e)
      (sem.settle own (e.substitute φ)) := by
  induction e with
  | var x =>
    rw [settle, Expr.substitute]
    cases hx : φ x with
    | none => exact Agree.pure fun _ _ => rfl
    | some t =>
      obtain ⟨y, rfl, -⟩ := h₀ x t hx
      rw [Option.getD_some, settle]
      refine Agree.pure fun s hs => ?_
      obtain ⟨z, hz, heq⟩ := hs x (by simp [Expr.readsLeft]) _ hx
      cases hz
      exact heq
  | int n => exact Agree.pure fun _ _ => rfl
  | double d => exact Agree.pure fun _ _ => rfl
  | access a is ih =>
    rw [Expr.substitute, settle, settle, Expr.substituteList_eq]
    refine (sem.agree_settleList ih).bind_pure fun rs rs' hrs s hs => ?_
    rw [hrs s hs]
  | neg e ih =>
    rw [Expr.substitute, settle, settle]
    exact ih.bind_pure fun r r' hr s hs => by rw [hr s hs]
  | binary op l r ihl ihr =>
    rw [Expr.substitute, settle, settle]
    refine ihl.bind fun a a' ha => ihr.bind_pure fun b b' hb s hs => ?_
    rw [Expr.readsLeft, List.forall_mem_append] at hs
    rw [ha s hs.1, hb s hs.2]
  | paren e ih =>
    rw [Expr.substitute, settle, settle]
    exact ih
  | cond c t f ihc iht ihf =>
    rw [Expr.substitute, settle, settle, Expr.callEvents, List.append_assoc]
    refine ihc.bind fun a a' ha => iht.bind fun b b' hb => ihf.bind_pure fun d d' hd s hs => ?_
    rw [Expr.readsLeft, List.forall_mem_append, List.forall_mem_append] at hs
    rw [ha s hs.1.1, hb s hs.1.2, hd s hs.2]
  | call p es ih =>
    rw [Expr.substitute, settle, settle, Expr.substituteList_eq, Expr.callEvents, List.append_assoc]
    refine (sem.agree_settleList ih).bind fun rs rs' hrs => (sem.agree_invoke h₀ p hrs).bind_pure ?_
    rintro v - rfl s -
    rfl

/-- An instruction may read its variables elsewhere, where the same values are found at first, if
the variables that it reads behind a call are the caller's own. -/
theorem perform_substitute (h₀ : ∀ x, ReadsSame φ s₀ x) {i : Instr}
    (hown : ∀ x ∈ i.readsBehindCall, ReadsOwn φ own x) :
    sem.perform own (i.substitute φ) s₀ = sem.perform own i s₀ := by
  have hsettle : ∀ e : Expr, Agree own φ s₀ e.callEvents (SameReading φ e.readsLeft)
      (sem.settle own e) (sem.settle own (e.substitute φ)) := sem.agree_settle h₀
  cases i with
  | assign t v =>
    cases t with
    | var x =>
      exact (hsettle v).bind_read h₀ hown fun u s =>
        (false, { s with scalars := Function.update s.scalars x u })
    | access a is =>
      have hboth : Agree own φ s₀ (Expr.callEventsList is ++ v.callEvents)
          (SameReading φ (Expr.readsLeftList is ++ v.readsLeft))
          (do let rs ← sem.settleList own is; let r ← sem.settle own v
              return fun s => (Reading.all rs s, r s))
          (do let rs ← sem.settleList own (is.map (Expr.substitute φ))
              let r ← sem.settle own (v.substitute φ)
              return fun s => (Reading.all rs s, r s)) := by
        refine (sem.agree_settleList fun e _ => hsettle e).bind fun rs rs' hrs =>
          (hsettle v).bind_pure fun r r' hr s hs => ?_
        rw [List.forall_mem_append] at hs
        rw [hrs s hs.1, hr s hs.2]
      rw [Instr.substitute, Expr.substitute, Expr.substituteList_eq]
      exact hboth.bind_read h₀ hown fun u s =>
        (false, { s with arrays := sem.store a (s.scalars a) u.1 u.2 s.arrays })
    | _ => exact (hsettle v).bind_read h₀ hown fun _ s => (false, s)
  | branch c l => exact (hsettle c).bind_read h₀ hown fun u s => (sem.holds u, s)
  | call p es =>
    have hcall : Agree own φ s₀ (Instr.call p es).events Eq (sem.perform own (.call p es))
        (sem.perform own (.call p (es.map (Expr.substitute φ)))) := by
      rw [Instr.events, Expr.callEvents, List.append_assoc, perform, perform]
      exact (sem.agree_settleList fun e _ => hsettle e).bind fun rs rs' hrs =>
        (sem.agree_invoke h₀ p hrs).bind_pure fun _ _ _ => rfl
    obtain ⟨hresult, hstore, -⟩ := hcall false s₀ (.refl _ _) hown
    exact Prod.ext hresult.symm hstore
  | _ => rfl

/-- `perform_substitute` for a state of a run. -/
theorem execute_substitute (target : String → Nat) {c : Configuration V A}
    (h₀ : ∀ x, ReadsSame φ ⟨c.scalars, c.arrays⟩ x) {i : Instr}
    (hown : ∀ x ∈ i.readsBehindCall, ReadsOwn φ own x) :
    sem.execute own target c (i.substitute φ) = sem.execute own target c i := by
  have htarget : (i.substitute φ).jumpTarget? = i.jumpTarget? := by
    cases i with
    | assign t v => cases t <;> rfl
    | _ => rfl
  simp only [execute, sem.perform_substitute h₀ hown, htarget]

/-! ### Expressions without calls -/

/-- An expression without calls leaves the scalars as they are. -/
theorem scalars_settle {e : Expr} (h : e.hasCall = false) (s : Store V A) :
    (sem.settle own e s).2.scalars = s.scalars := by
  have hsame : ∀ x, ReadsSame (fun _ => none) s x := fun x t ht => by cases ht
  obtain ⟨-, -, hs⟩ := sem.agree_settle hsame e false s (.refl _ _)
    fun x _ t ht => by cases ht
  rw [Expr.callEvents_eq_nil h] at hs
  exact hs.scalars_eq rfl

end CallSemantics

end Substitute

end ParLoop
