import Mathlib
import ParLoop.Proofs.FlowGraph.CallFree
import ParLoop.Proofs.Iteration.Facts
import ParLoop.Proofs.Verify.Arrays
import ParLoop.Proofs.Verify.Writes

/-!
# Iterations of a parallelizable loop are independent

Of a loop whose body declares and assigns without calls: if its verdict is that it is
parallelizable, no iteration writes an element that another one accesses, and every iteration leaves
the variables from outside as they were (`independent_of_parallelizable`).
-/

namespace ParLoop.Verify

open Descriptor ParLoop.Flow

/-- Where the body of a loop negates a value or subtracts it from zero, the value is not known to be
one. -/
def KeepsSigns (p : Program) (interprocedural : Bool) (cap : Nat) : Prop :=
  ∀ g calls facts, FlowGraph.ofProgram p interprocedural = .ok (g, calls) →
    (dependence p.counter).solve g cap = .ok facts → ∀ node i, (node, i) ∈ g.instrNodes →
      ∀ e ∈ i.expressions, Descriptor.KeepsSigns (facts.factsAt node) e

variable {p : Program} {interprocedural : Bool} {cap : Nat}

section

variable {w : World} {g : FlowGraph} {facts : Solution Descriptor} {storages : Solution Alias}

variable (hg : g.IsGraphOf loopName p.body)
  (hfacts : ∀ k < p.body.length, facts.factsAt (k + 2) = (dependence p.counter).along g k)
  (hsigns : ∀ k i, p.body[k]? = some i → ∀ e ∈ i.expressions,
    Descriptor.KeepsSigns ((dependence p.counter).along g k) e)

include hg hfacts hsigns

/-- Two indices that match and change with the iteration have different values in different
iterations: within one iteration they have the same value. -/
theorem number_ne_of_matches {A B : Iteration} (hA : 0 ≤ A.counter) (hB : 0 ≤ B.counter)
    (hne : A.counter ≠ B.counter) {k j : Nat} {i i' : Instr} (hi : p.body[k]? = some i)
    (hi' : p.body[j]? = some i') {c c' e e' : Expr} (hc : c ∈ i.expressions)
    (hc' : c' ∈ i'.expressions) (he : e ∈ c.subterms) (he' : e' ∈ c'.subterms)
    (hdependent : isLoopDependent (facts.factsAt (k + 2)) e = true)
    (hdependent' : isLoopDependent (facts.factsAt (j + 2)) e' = true)
    (hmatch : Matches (fun x => trace g facts g.size x (k + 2))
      (fun x => trace g facts g.size x (j + 2)) e e') :
    (w.meaning.eval (w.stateAt p A k) e).number ≠ (w.meaning.eval (w.stateAt p B j) e').number := by
  have hk : k < p.body.length := (List.getElem?_eq_some_iff.1 hi).1
  have hj : j < p.body.length := (List.getElem?_eq_some_iff.1 hi').1
  rw [hfacts k hk, isLoopDependent, OrderedSet.contains_iff] at hdependent
  rw [hfacts j hj, isLoopDependent, OrderedSet.contains_iff] at hdependent'
  have hsame : (w.meaning.eval (w.stateAt p A k) e).number =
      (w.meaning.eval (w.stateAt p A j) e').number := by
    refine evaluate_determined (V := w.meaning.valuation (w.stateAt p A k))
      (W := w.meaning.valuation (w.stateAt p A j)) hmatch (fun x x' hx => ?_) (fun t ht => ?_)
      ⟨_, hdependent⟩
    · have hvalue := congrArg (w.definedValue p A) hx
      rw [World.definedValue_trace A hg hfacts g.size hk,
        World.definedValue_trace A hg hfacts g.size hj] at hvalue
      exact congrArg Value.number hvalue
    · exact (World.evaluate_stateAt hg hsigns hA hB hne hi hc (Expr.mem_subterms_trans he ht)).1
  rw [hsame]
  exact (World.evaluate_stateAt hg hsigns hA hB hne hi' hc' he').2 hdependent'

/-- No iteration writes what another one accesses, if the check of the arrays succeeds. -/
theorem not_touches_of_checkArrays
    (hstorages : ∀ k < p.body.length, storages.factsAt (k + 2) =
      (aliases (AliasGroup.seeds (AliasGroup.ofProgram p))).along g k)
    (h : checkArrays g facts storages = .ok none) (hw : w.Separates p) {A B : Iteration}
    (hA : 0 ≤ A.counter) (hB : 0 ≤ B.counter) (hne : A.counter ≠ B.counter) {l : Location}
    (hwrite : w.Writes p A l) : ¬ w.Touches p B l := by
  rintro ⟨j, i', e', hi', he', hl'⟩
  obtain ⟨k, a, is, value, hi, hl⟩ := hwrite
  have hk : k < p.body.length := (List.getElem?_eq_some_iff.1 hi).1
  have hj : j < p.body.length := (List.getElem?_eq_some_iff.1 hi').1
  obtain ⟨c', hc', hacc⟩ := List.mem_flatMap.1 he'
  obtain ⟨hsub', hisaccess⟩ := List.mem_filter.1 hacc
  obtain ⟨b, js, rfl⟩ : ∃ b js, e' = .access b js := by
    cases e' <;> simp [Expr.accessedArray?] at hisaccess
    exact ⟨_, _, rfl⟩
  -- Both names hold the storage of the element, so both may denote it.
  obtain ⟨s, hs, rfl⟩ := Option.map_eq_some_iff.1 hl
  obtain ⟨s', hs', heq⟩ := Option.map_eq_some_iff.1 hl'
  obtain ⟨rfl, hnumbers⟩ := Location.mk.inj heq
  have ht := Alias.mem_targetsOf.2 (World.denotes_stateAt hg hw A (Nat.le_of_lt hk) hs)
  have ht' := Alias.mem_targetsOf.2 (World.denotes_stateAt hg hw B (Nat.le_of_lt hj) hs')
  rw [← hstorages k hk] at ht
  rw [← hstorages j hj] at ht'
  -- So they have an index in common that changes with the iteration.
  obtain ⟨isWrite, hmem'⟩ := mem_accesses (hg.mem_instrNodes.2 ⟨j, hi', rfl⟩) he'
  have hmem := write_mem_accesses (hg.mem_instrNodes.2 ⟨k, hi, rfl⟩)
  obtain ⟨index, hindex, hindex'⟩ := indexOf_of_checkArrays h hmem hmem' rfl rfl rfl ht ht'
  obtain ⟨e, he, hdependent, hexpr, hdefs⟩ := indexOf_eq_ok hindex
  obtain ⟨e', he', hdependent', hexpr', hdefs'⟩ := indexOf_eq_ok hindex'
  have hvalue : (w.meaning.eval (w.stateAt p A k) e).number =
      (w.meaning.eval (w.stateAt p B j) e').number := by
    rw [Meaning.numbers_eq, Meaning.numbers_eq] at hnumbers
    have := congrArg (fun l => l[index.dimension]?) hnumbers
    simpa [he, he'] using this.symm
  refine number_ne_of_matches hg hfacts hsigns hA hB hne hi hi'
    (c := .access a is) (by simp [Instr.expressions]) hc' ?_ ?_ hdependent hdependent'
    ⟨hexpr ▸ hexpr', hdefs ▸ hdefs'⟩ hvalue
  · exact Expr.mem_subterms_of_mem_children (List.mem_of_getElem? he) e.self_mem_subterms
  · exact Expr.mem_subterms_trans hsub'
      (Expr.mem_subterms_of_mem_children (List.mem_of_getElem? he') e'.self_mem_subterms)

end

/-- A body without jumps can be reached everywhere without a name that it does not declare. -/
theorem undeclared_of_straight {body : List Instr} (hbody : Straight body) {x : String}
    (hx : .declare x ∉ body) {k : Nat} (hk : k ≤ body.length) : Undeclared body x k := by
  induction k with
  | zero => exact .start
  | succ k ih =>
    refine .step (ih (by omega)) (fun h => hx (List.mem_of_getElem? h)) ?_
    exact hbody.continues_iff.2 ⟨hk, rfl⟩

/-- An iteration leaves the variables from outside as they were, if the check of the writes
succeeds. -/
theorem vars_of_checkWrites {g : FlowGraph} (hg : g.IsGraphOf loopName p.body)
    (hbody : ∀ i ∈ p.body, i.isPlain = true) (h : checkWrites p g cap = .ok none) (w : World)
    (it : Iteration) {x : String} (hx : .declare x ∉ p.body) {k : Nat} (hk : k ≤ p.body.length) :
    (w.stateAt p it k).vars x = (w.stateAt p it 0).vars x := by
  have hroot : loopName ∈ g.boundaries.names := by
    rw [hg.boundaries_eq]
    exact List.mem_singleton.2 rfl
  have honly := assignsOnly_root h hg.root_eq hroot
  induction k with
  | zero => rfl
  | succ k ih =>
    have hi : p.body[k]? = some p.body[k] := List.getElem?_eq_getElem hk
    have hundeclared := undeclared_of_straight (straight_of_isPlain hbody) hx (Nat.le_of_lt hk)
    rw [World.stateAt_succ _ _ _ hi, Meaning.vars_step, ih (by omega)]
    generalize p.body[k] = i at hi
    intro hdefined
    cases i with
    | declare y =>
      cases hdefined
      exact hx (List.mem_of_getElem? hi)
    | assign t' v =>
      cases t' with
      | var y =>
        cases hdefined
        exact absurd (honly x k v hi hundeclared) List.not_mem_nil
      | _ => cases hdefined
    | _ => cases hdefined

/-- **Iterations of a parallelizable loop are independent.** For two values of the counter, neither
of them negative, the one iteration writes no element that the other one accesses, if the groups of
arrays are held apart and signs are kept. And every iteration leaves the variables that the body
does not declare as they were. -/
theorem independent_of_parallelizable (hbody : ∀ i ∈ p.body, i.isPlain = true)
    (h : verdict p interprocedural cap = .ok .parallelizable) (w : World) (A : Iteration) :
    (KeepsSigns p interprocedural cap → w.Separates p → ∀ B : Iteration, 0 ≤ A.counter →
      0 ≤ B.counter → A.counter ≠ B.counter → ∀ l, w.Writes p A l → ¬ w.Touches p B l) ∧
    ∀ x, .declare x ∉ p.body →
      (w.stateAt p A p.body.length).vars x = (w.stateAt p A 0).vars x := by
  obtain ⟨g, calls, facts, storages, hprogram, hwrites, hfacts, hstorages, harrays⟩ :=
    verdict_eq_parallelizable h
  have hg := FlowGraph.ofProgram_isGraphOf (fun i hi => Instr.hasCall_of_isPlain (hbody i hi))
    hprogram
  refine ⟨fun hsigns hw B hA hB hne l hl => ?_, fun x hx => ?_⟩
  · have hstraight := straight_of_isPlain hbody
    have hfactsAt : ∀ k < p.body.length,
        facts.factsAt (k + 2) = (dependence p.counter).along g k :=
      fun k hk => factsAt_straight hg rfl (isJoin_dependence p.counter g) hstraight hfacts hk
    have hstoragesAt : ∀ k < p.body.length, storages.factsAt (k + 2) =
        (aliases (AliasGroup.seeds (AliasGroup.ofProgram p))).along g k :=
      fun k hk => factsAt_straight hg rfl (Analysis.isJoin_of_union rfl g) hstraight hstorages hk
    have hsignsAt : ∀ k i, p.body[k]? = some i → ∀ e ∈ i.expressions,
        Descriptor.KeepsSigns ((dependence p.counter).along g k) e := by
      intro k i hi e he
      rw [← hfactsAt k (List.getElem?_eq_some_iff.1 hi).1]
      exact hsigns g calls facts hprogram hfacts (k + 2) i (hg.mem_instrNodes.2 ⟨k, hi, rfl⟩) e he
    exact not_touches_of_checkArrays hg hfactsAt hsignsAt hstoragesAt harrays hw hA hB hne hl
  · exact vars_of_checkWrites hg hbody hwrites w A hx (Nat.le_refl _)

/-- A loop that copies its counter to use it as an index. -/
def copyLoop : Program :=
  ((Program.ofBody "i" [.declare "t", .assign (.var "t") (.var "i"),
    .assign (.access "a" [.var "t"])
      (.binary .add (.access "a" [.var "i"]) (.access "b" [.int 0]))]).withSymbol
    ⟨"a", .localVariable, .named "int", 1, []⟩).withSymbol
    ⟨"b", .localVariable, .named "int", 1, []⟩

/-- A world in which the arrays of `copyLoop` are different ones. -/
def copyWorld : World where
  meaning := .integers
  outside x := ⟨0, if x = "a" then some (.outer 0) else if x = "b" then some (.outer 1) else none⟩

theorem groups_copyLoop : AliasGroup.ofProgram copyLoop =
    [⟨OrderedSet.ofList ["a"]⟩, ⟨OrderedSet.ofList ["b"]⟩] := by
  cbv

theorem separates_copyWorld : copyWorld.Separates copyLoop where
  held x s hs := by
    rw [groups_copyLoop]
    simp only [copyWorld] at hs
    split at hs
    case isTrue h =>
      cases hs
      exact ⟨⟨0, rfl⟩, ⟨.ofList ["a"]⟩, by simp, by simp [h]⟩
    case isFalse =>
      split at hs
      case isTrue h =>
        cases hs
        exact ⟨⟨1, rfl⟩, ⟨.ofList ["b"]⟩, by simp, by simp [h]⟩
      case isFalse => cases hs
  apart g hg g' hg' x hx y hy s hs hs' := by
    rw [groups_copyLoop] at hg hg'
    have hsame := hs.trans hs'.symm
    simp only [List.mem_cons, List.not_mem_nil, or_false] at hg hg'
    rcases hg with rfl | rfl <;> rcases hg' with rfl | rfl <;>
      cases List.mem_singleton.1 hx <;> cases List.mem_singleton.1 hy
    · rfl
    · simp [copyWorld] at hsame
    · simp [copyWorld] at hsame
    · rfl

/-- The iteration of `copyLoop` with a value of the counter. -/
def copyIteration (n : Int) : Iteration := ⟨n, fun _ => 0, fun _ => 0⟩

theorem keepsSigns_copyLoop : KeepsSigns copyLoop true 1000 := by
  intro g calls facts hprogram _ node i hi e he
  obtain ⟨k, hk, -⟩ := (FlowGraph.ofProgram_isGraphOf (by decide) hprogram).mem_instrNodes.1 hi
  have hmem : i ∈ copyLoop.body := List.mem_of_getElem? hk
  have hparts : ∀ t ∈ e.subterms, ∀ l r, t ≠ .neg l ∧ t ≠ .binary .subtract l r := by
    simp only [copyLoop, Program.withSymbol, Program.ofBody, List.mem_cons, List.not_mem_nil,
      or_false] at hmem
    rcases hmem with rfl | rfl | rfl <;> simp [Instr.expressions] at he <;>
      rcases he with rfl | rfl <;> simp [Expr.subterms, Expr.subtermsList]
  exact ⟨fun t ht => absurd rfl (hparts _ ht t t).1, fun l r ht => absurd rfl (hparts _ ht l r).2⟩

/-- The elements that `copyLoop` writes for one value of the counter and accesses for another. -/
theorem independent_copyLoop : copyWorld.Writes copyLoop (copyIteration 3) ⟨.outer 0, [3]⟩ ∧
    ¬ copyWorld.Touches copyLoop (copyIteration 5) ⟨.outer 0, [3]⟩ := by
  have hverdict : verdict copyLoop true 1000 = .ok .parallelizable := by cbv
  have hwrites : copyWorld.Writes copyLoop (copyIteration 3) ⟨.outer 0, [3]⟩ :=
    ⟨2, "a", [.var "t"], _, rfl, by rfl⟩
  have hindependent := (independent_of_parallelizable (by decide) hverdict copyWorld
    (copyIteration 3)).1 keepsSigns_copyLoop separates_copyWorld
  exact ⟨hwrites, hindependent (copyIteration 5) (by decide) (by decide) (by decide) _ hwrites⟩

end ParLoop.Verify
