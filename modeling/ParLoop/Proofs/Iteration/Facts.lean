import ParLoop.Proofs.Flow.Aliases
import ParLoop.Proofs.Flow.Dependence
import ParLoop.Proofs.Iteration.Run
import ParLoop.Verify.Arrays

/-!
# What the analyses find is true of every iteration

For a body of declarations and assignments without calls:

* `vars_eq_definedValue`: a variable holds what its last definition gave it;
* `definedValue_trace`: following a variable back through copies keeps the value;
* `described_stateAt`: what is known of a variable is true of its values in any two iterations;
* `denotes_stateAt`: a storage that a name holds is among those that it may denote.
-/

namespace ParLoop

open Descriptor ParLoop.Flow

theorem Instr.continues_of_isPlain {i : Instr} (h : i.isPlain = true) :
    i.fallsThrough = true ∧ i.jumpTarget? = none := by
  cases i with
  | declare x => exact ⟨rfl, rfl⟩
  | assign t v => exact ⟨rfl, rfl⟩
  | _ => cases h

theorem straight_of_isPlain {body : List Instr} (h : ∀ i ∈ body, i.isPlain = true) :
    Straight body :=
  fun i hi => Instr.continues_of_isPlain (h i hi)

namespace World

variable {w : World} {p : Program} {g : FlowGraph}

/-! ### Definitions -/

section Definitions

variable (it : Iteration)

/-- What a name holds in an iteration by its definitions: the value that the only definition gave
it, or the value it had at the start. -/
def definedValue (w : World) (p : Program) (it : Iteration) (d : String × OrderedSet Nat) : Value :=
  match d.2.toList with
  | [node] => (w.stateAt p it (node - 1)).vars d.1
  | _ => (w.stateAt p it 0).vars d.1

theorem along_dependence_zero (hg : g.IsGraphOf loopName p.body) :
    (dependence p.counter).along g 0 = counterFacts p.counter 0 := by
  rw [Analysis.along, leaving_start hg]
  show counterFacts p.counter g.start = _
  rw [hg.start_eq]

theorem along_dependence_succ (hg : g.IsGraphOf loopName p.body) {k : Nat} {i : Instr}
    (hi : p.body[k]? = some i) : (dependence p.counter).along g (k + 1) =
      describe (k + 2) ⟨loopName, .instr i⟩ ((dependence p.counter).along g k) := by
  rw [Analysis.along, leaving_instr hg hi]
  rfl

theorem definitionsOf_describe {node : Nat} {i : Instr} {facts : OrderedSet Descriptor}
    {x : String} : definitionsOf (describe node ⟨loopName, .instr i⟩ facts) x =
      if i.defined? = some x then .ofList [node] else definitionsOf facts x := by
  cases i with
  | declare y =>
    rw [describe_declare, definitionsOf_redefine]
    simp [Instr.defined?, eq_comm]
  | assign t v =>
    cases t with
    | var y =>
      rw [describe_assign, definitionsOf_redefine]
      simp [Instr.defined?, eq_comm]
    | _ => rfl
  | _ => rfl

/-- **A variable holds what its last definition gave it.** -/
theorem vars_eq_definedValue (hg : g.IsGraphOf loopName p.body) {k : Nat}
    (hk : k ≤ p.body.length) (x : String) : (w.stateAt p it k).vars x =
      definedValue w p it (x, definitionsOf ((dependence p.counter).along g k) x) := by
  induction k with
  | zero =>
    rw [along_dependence_zero hg, counterFacts, definitionsOf_redefine]
    split
    · rfl
    · rfl
  | succ k ih =>
    have hi : p.body[k]? = some p.body[k] := List.getElem?_eq_getElem hk
    rw [along_dependence_succ hg hi, definitionsOf_describe]
    split
    · rfl
    case isFalse h => rw [stateAt_succ _ _ _ hi, Meaning.vars_step _ _ _ _ h, ih (by omega)]

theorem copied?_eq_some (hg : g.IsGraphOf loopName p.body) {node : Nat} {x y : String}
    (h : Verify.copied? g node x = some y) :
    ∃ j, node = j + 2 ∧ p.body[j]? = some (.assign (.var x) (.var y)) := by
  unfold Verify.copied? at h
  split at h
  case h_1 z y' hz =>
    split at h
    case isTrue hzx =>
      cases h
      obtain ⟨j, hj, rfl⟩ := hg.instr?_eq_some.1 hz
      simp only [Bool.and_eq_true, decide_eq_true_eq] at hzx
      exact ⟨j, rfl, hzx.1 ▸ hj⟩
    case isFalse => cases h
  case h_2 => cases h

/-- **Following a variable back through copies keeps its value.** -/
theorem definedValue_trace (hg : g.IsGraphOf loopName p.body) {facts : Solution Descriptor}
    (hfacts : ∀ k < p.body.length, facts.factsAt (k + 2) = (dependence p.counter).along g k)
    (steps : Nat) {k : Nat} (hk : k < p.body.length) (x : String) :
    definedValue w p it (Verify.trace g facts steps x (k + 2)) = (w.stateAt p it k).vars x := by
  induction steps generalizing k x with
  | zero =>
    rw [Verify.trace, hfacts k hk]
    exact (vars_eq_definedValue it hg (Nat.le_of_lt hk) x).symm
  | succ steps ih =>
    have hvalue := vars_eq_definedValue (w := w) it hg (Nat.le_of_lt hk) x
    rw [Verify.trace, hfacts k hk]
    split
    case h_1 only honly =>
      split
      case h_1 source hsource =>
        -- The only definition is a copy, made where the source had the value.
        obtain ⟨j, rfl, hj⟩ := copied?_eq_some hg hsource
        have hj' : j < p.body.length := (List.getElem?_eq_some_iff.1 hj).1
        rw [ih hj', hvalue, definedValue]
        simp only [honly]
        rw [show j + 2 - 1 = j + 1 from rfl, stateAt_succ _ _ _ hj, Meaning.step, State.vars_hold,
          if_pos rfl, Meaning.eval]
      case h_2 => exact hvalue.symm
    case h_2 => exact hvalue.symm

end Definitions

/-! ### Kinds -/

theorem kindsOf_describe {node : Nat} {i : Instr} {facts : OrderedSet Descriptor} {x : String}
    (h : i.defined? ≠ some x) :
    kindsOf (describe node ⟨loopName, .instr i⟩ facts) x = kindsOf facts x := by
  cases i with
  | declare y =>
    rw [describe_declare, kindsOf_redefine, if_neg]
    rintro rfl
    exact h rfl
  | assign t v =>
    cases t with
    | var y =>
      rw [describe_assign, kindsOf_redefine, if_neg]
      rintro rfl
      exact h rfl
    | _ => rfl
  | _ => rfl

/-- What is known of the counter is true of two of its values. -/
theorem described_counter (counter : String) (start : Nat) {m n : Int} (hm : 0 ≤ m) (hmn : m < n) :
    Described (counterFacts counter start) 0 counter m n := by
  have hkinds : kindsOf (counterFacts counter start) counter =
      .ofList [.positive, .notZero, .loopDependent] := by
    rw [counterFacts, kindsOf_redefine, if_pos rfl]
  rw [Described, hkinds]
  refine ⟨⟨⟨?_, ?_⟩, ?_⟩, ⟨?_, ?_, ?_, ?_, ?_, ?_, ?_, ?_, ?_⟩, ?_⟩ <;> simp <;> omega

theorem described_empty {facts : OrderedSet Descriptor} {x : String} {m n : Int}
    (h : kindsOf facts x = ∅) : Described facts 0 x m n := by
  rw [Described, h]
  exact ⟨Kinds.wellFormed_empty, Kinds.consistent_empty⟩

/-- **What is known of a variable is true of its values in any two iterations**, given in the order
of their counters. -/
theorem described_stateAt (hg : g.IsGraphOf loopName p.body)
    (hsigns : ∀ k i, p.body[k]? = some i → ∀ e ∈ i.expressions,
      KeepsSigns ((dependence p.counter).along g k) e)
    {A B : Iteration} (hA : 0 ≤ A.counter) (hAB : A.counter < B.counter) {k : Nat}
    (hk : k ≤ p.body.length) (x : String) :
    Described ((dependence p.counter).along g k) 0 x ((w.stateAt p A k).vars x).number
      ((w.stateAt p B k).vars x).number := by
  induction k generalizing x with
  | zero =>
    rw [along_dependence_zero hg]
    by_cases hx : x = p.counter
    · rw [stateAt, stateAt, State.vars_hold, State.vars_hold, if_pos hx, if_pos hx, hx]
      exact described_counter p.counter 0 hA hAB
    · refine described_empty ?_
      rw [counterFacts, kindsOf_redefine, if_neg hx, kindsOf_empty]
  | succ k ih =>
    have hi : p.body[k]? = some p.body[k] := List.getElem?_eq_getElem hk
    generalize p.body[k] = i at hi
    rw [along_dependence_succ hg hi, stateAt_succ _ _ _ hi, stateAt_succ _ _ _ hi]
    by_cases hx : i.defined? = some x
    · cases i with
      | declare y =>
        cases hx
        exact described_empty (by rw [describe_declare, kindsOf_redefine, if_pos rfl])
      | assign t v =>
        cases t with
        | var y =>
          cases hx
          have hv := evaluate_consistent (Or.inl rfl) (w.meaning.valuation (w.stateAt p A k))
            (w.meaning.valuation (w.stateAt p B k)) (hsigns k _ hi v (by simp [Instr.expressions]))
            fun y _ => ih (by omega) y
          rw [Described, describe_assign, kindsOf_redefine, if_pos rfl, Meaning.step, Meaning.step,
            State.vars_hold, State.vars_hold, if_pos rfl, if_pos rfl]
          exact hv
        | _ => cases hx
      | _ => cases hx
    · rw [Described, kindsOf_describe hx, Meaning.vars_step _ _ _ _ hx,
        Meaning.vars_step _ _ _ _ hx]
      exact ih (by omega) x

/-- What is found for a part of an expression at a position is true of its value in an iteration,
and of how it changes to another one. -/
theorem evaluate_stateAt (hg : g.IsGraphOf loopName p.body)
    (hsigns : ∀ k i, p.body[k]? = some i → ∀ e ∈ i.expressions,
      KeepsSigns ((dependence p.counter).along g k) e)
    {A B : Iteration} (hA : 0 ≤ A.counter) (hB : 0 ≤ B.counter) (hne : A.counter ≠ B.counter)
    {k : Nat} {i : Instr} (hi : p.body[k]? = some i) {e t : Expr} (he : e ∈ i.expressions)
    (ht : t ∈ e.subterms) :
    Kinds.Definite (evaluate ((dependence p.counter).along g k) t)
        (w.meaning.eval (w.stateAt p A k) t).number ∧
      (.loopDependent ∈ evaluate ((dependence p.counter).along g k) t →
        (w.meaning.eval (w.stateAt p A k) t).number ≠
          (w.meaning.eval (w.stateAt p B k) t).number) := by
  have hk : k ≤ p.body.length := Nat.le_of_lt (List.getElem?_eq_some_iff.1 hi).1
  have hsign := (hsigns k i hi e he).of_mem_subterms ht
  rcases Int.lt_or_gt_of_ne hne with hlt | hgt
  · have h := (evaluate_consistent (Or.inl rfl) (w.meaning.valuation (w.stateAt p A k))
      (w.meaning.valuation (w.stateAt p B k)) hsign
      fun x _ => described_stateAt hg hsigns hA hlt hk x).2
    exact ⟨h.definite_left, h.dependent⟩
  · have h := (evaluate_consistent (Or.inl rfl) (w.meaning.valuation (w.stateAt p B k))
      (w.meaning.valuation (w.stateAt p A k)) hsign
      fun x _ => described_stateAt hg hsigns hB hgt hk x).2
    exact ⟨h.definite_right, fun hd => (h.dependent hd).symm⟩

/-! ### Storages -/

/-- The expression that stands for a storage: that of its alias group, or the declared name. -/
def targetOf (w : World) (p : Program) : Storage → Expr
  | .outer id =>
    let holds (x : String) : Bool := (w.outside x).storage = some (.outer id)
    (((AliasGroup.ofProgram p).find? fun g => g.members.toList.any holds).map
      AliasGroup.target).getD default
  | .own _ k => ((p.body[k]?.bind Instr.defined?).map Expr.var).getD default

theorem targetOf_outside (hw : w.Separates p) {g : AliasGroup} (hg : g ∈ AliasGroup.ofProgram p)
    {x : String} (hx : x ∈ g.members) {s : Storage} (hs : (w.outside x).storage = some s) :
    w.targetOf p s = g.target := by
  obtain ⟨⟨id, rfl⟩, -⟩ := hw.held x s hs
  cases hfind : (AliasGroup.ofProgram p).find? fun g => g.members.toList.any fun x =>
      decide ((w.outside x).storage = some (.outer id)) with
  | none =>
    have := List.find?_eq_none.1 hfind g hg
    simp only [List.any_eq_true, decide_eq_true_eq, not_exists, not_and] at this
    exact absurd hs (this x hx)
  | some g' =>
    have hmem := List.mem_of_find?_eq_some hfind
    have hholds := List.find?_some hfind
    obtain ⟨y, hy, hs'⟩ := List.any_eq_true.1 hholds
    rw [hw.apart g hg g' hmem x hx y hy _ hs (by simpa using hs')]
    simp [targetOf, hfind]

/-- A storage that a value holds is among those that it may denote. -/
theorem mem_denoted {facts : OrderedSet Alias} {target : Storage → Expr} {s : State}
    (hs : ∀ x storage, (s.vars x).storage = some storage → ⟨x, target storage⟩ ∈ facts)
    (m : Meaning) {e : Expr} {storage : Storage} (h : (m.eval s e).storage = some storage) :
    target storage ∈ denoted facts e := by
  obtain ⟨x, hx, hstorage⟩ := m.storage_eval s h
  have hmem := Alias.mem_targetsOf.2 (hs x storage hstorage)
  unfold denoted
  split
  case h_1 y =>
    cases List.mem_singleton.1 hx
    split
    case h_1 hnone =>
      rw [hnone] at hmem
      cases hmem
    case h_2 => exact hmem
  case h_2 =>
    refine List.mem_flatMap.2 ⟨x, ?_, hmem⟩
    rw [← OrderedSet.mem_iff, Expr.names, OrderedSet.mem_ofList, List.mem_filterMap]
    exact ⟨.var x, Expr.mem_occurrences.1 hx, rfl⟩

theorem along_aliases_zero (hg : g.IsGraphOf loopName p.body) (outside : OrderedSet Alias) :
    (aliases outside).along g 0 = outside := by
  rw [Analysis.along, leaving_start hg]
  show rebindAt outside g.root ⟨loopName, .start⟩ outside = outside
  simp [rebindAt, hg.root_eq]

theorem along_aliases_succ (hg : g.IsGraphOf loopName p.body) (outside : OrderedSet Alias)
    {k : Nat} {i : Instr} (hi : p.body[k]? = some i) : (aliases outside).along g (k + 1) =
      rebindAt outside loopName ⟨loopName, .instr i⟩ ((aliases outside).along g k) := by
  rw [Analysis.along, leaving_instr hg hi, ← hg.root_eq]
  rfl

/-- **A storage that a name holds is among those that it may denote.** -/
theorem denotes_stateAt (hg : g.IsGraphOf loopName p.body) (hw : w.Separates p) (it : Iteration)
    {k : Nat} (hk : k ≤ p.body.length) {x : String} {s : Storage}
    (hs : ((w.stateAt p it k).vars x).storage = some s) :
    ⟨x, w.targetOf p s⟩ ∈
      (aliases (AliasGroup.seeds (AliasGroup.ofProgram p))).along g k := by
  induction k generalizing x s with
  | zero =>
    have houtside : (w.outside x).storage = some s := by
      rw [stateAt, State.vars_hold] at hs
      split at hs
      case isTrue h => rwa [h]
      case isFalse => exact hs
    obtain ⟨-, group, hgroup, hx⟩ := hw.held x s houtside
    rw [along_aliases_zero hg, targetOf_outside hw hgroup hx houtside, AliasGroup.seeds,
      OrderedSet.mem_ofList, List.mem_flatMap]
    exact ⟨group, hgroup, List.mem_map.2 ⟨x, hx, rfl⟩⟩
  | succ k ih =>
    have hi : p.body[k]? = some p.body[k] := List.getElem?_eq_getElem hk
    generalize p.body[k] = i at hi
    rw [along_aliases_succ hg _ hi]
    rw [stateAt_succ _ _ _ hi] at hs
    have ih : ∀ x s, ((w.stateAt p it k).vars x).storage = some s → _ := fun x s => ih (by omega)
    cases i with
    | declare y =>
      refine mem_rebind.2 ?_
      rw [Meaning.step, State.vars_hold] at hs
      split at hs
      case isTrue h =>
        cases hs
        exact Or.inr ⟨h, by simp [targetOf, hi, Instr.defined?]⟩
      case isFalse h => exact Or.inl ⟨ih x s hs, h⟩
    | assign t v =>
      cases t with
      | var y =>
        refine mem_rebind.2 ?_
        rw [Meaning.step, State.vars_hold] at hs
        split at hs
        case isTrue h => exact Or.inr ⟨h, mem_denoted ih w.meaning hs⟩
        case isFalse h => exact Or.inl ⟨ih x s hs, h⟩
      | access a is =>
        rw [Meaning.vars_step _ _ _ _ (by simp [Instr.defined?])] at hs
        exact ih x s hs
      | _ => exact ih x s hs
    | _ => exact ih x s hs

end World

end ParLoop
