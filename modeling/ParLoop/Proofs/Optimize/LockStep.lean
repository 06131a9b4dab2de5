import ParLoop.Proofs.NameMap
import ParLoop.Proofs.Optimize.Facts
import ParLoop.Proofs.Optimize.Work
import ParLoop.Proofs.Outcome

/-!
# The optimizer keeps runs

A pass replaces instructions by others that do the same wherever a run can be
(`Pass.apply_lockStep`). So do any number of passes over any number of bodies, also when the
optimizer stops with an error (`optimizer_lockStep`).
-/

namespace ParLoop

/-! ### Passes -/

namespace Pass

variable {V A : Type} {sem : Semantics V A}

theorem getElem?_replaceAll (change : Instr → Nat → Option Instr) (body : List Instr) (k : Nat) :
    (replaceAll change body).1[k]? = body[k]?.map fun i => (change i k).getD i := by
  simp only [replaceAll, List.getElem?_map, List.getElem?_zipIdx]
  cases body[k]? <;> simp

theorem length_replaceAll (change : Instr → Nat → Option Instr) (body : List Instr) :
    (replaceAll change body).1.length = body.length := by
  simp [replaceAll]

/-- What is the same of an instruction and the one in its place is the same of the bodies. -/
theorem map_replaceAll {β : Type} {change : Instr → Nat → Option Instr} {body : List Instr}
    {p : Instr → β} (h : ∀ k i j, body[k]? = some i → change i k = some j → p j = p i) :
    (replaceAll change body).1.map p = body.map p := by
  refine List.ext_getElem? fun k => ?_
  rw [List.getElem?_map, List.getElem?_map, getElem?_replaceAll]
  cases hi : body[k]? with
  | none => rfl
  | some i =>
    cases hj : change i k with
    | none => simp [hj]
    | some j => simp [hj, h k i j hi hj]

theorem labelAt_replaceAll {change : Instr → Nat → Option Instr} {body : List Instr}
    (h : ∀ k i j, body[k]? = some i → change i k = some j → ∀ l, j = .label l ↔ i = .label l)
    (l : String) : labelAt (replaceAll change body).1 l = labelAt body l := by
  have hmap : (replaceAll change body).1.map (fun i => decide (i = .label l)) =
      body.map fun i => decide (i = .label l) :=
    map_replaceAll fun k i j hi hj => by simp [h k i j hi hj l]
  have hfind : ∀ is : List Instr,
      labelAt is l = (is.map fun i => decide (i = .label l)).findIdx id := by
    intro is
    rw [labelAt, List.findIdx_map]
    rfl
  rw [hfind, hfind, hmap]

/-- Instructions may be replaced by others that do the same wherever a run can be. -/
theorem run_replaceAll {ex : Execution V A} {change : Instr → Nat → Option Instr}
    {body : List Instr} {c : Configuration V A}
    (hlabel : ∀ k i j, body[k]? = some i → change i k = some j → ∀ l, j = .label l ↔ i = .label l)
    (h : ∀ n i j, body[(ex.run body c n).position]? = some i →
      change i (ex.run body c n).position = some j → ∀ target,
        ex target (ex.run body c n) j = ex target (ex.run body c n) i) (n : Nat) :
    ex.run (replaceAll change body).1 c n = ex.run body c n := by
  induction n with
  | zero => rfl
  | succ n ih =>
    rw [Execution.run, Execution.run, ih, Execution.step, Execution.step, getElem?_replaceAll]
    cases hi : body[(ex.run body c n).position]? with
    | none => rfl
    | some i =>
      have htargets : labelAt (replaceAll change body).1 = labelAt body :=
        funext (labelAt_replaceAll hlabel)
      simp only [Option.map_some, htargets]
      cases hj : change i (ex.run body c n).position with
      | none => rfl
      | some j => exact h n i j hi hj (labelAt body)

theorem lockStep_replaceAll {change : Instr → Nat → Option Instr} {body : List Instr}
    (hlabel : ∀ k i j, body[k]? = some i → change i k = some j → ∀ l, j = .label l ↔ i = .label l)
    (h : ∀ (V A : Type) (sem : Semantics V A) (scalars : String → V) (arrays : A) (n : Nat) i j,
      body[(sem.run body ⟨0, scalars, arrays⟩ n).position]? = some i →
      change i (sem.run body ⟨0, scalars, arrays⟩ n).position = some j → ∀ target,
        sem.execute target (sem.run body ⟨0, scalars, arrays⟩ n) j =
          sem.execute target (sem.run body ⟨0, scalars, arrays⟩ n) i) :
    LockStep body (replaceAll change body).1 := by
  refine ⟨(length_replaceAll change body).symm, fun V A sem scalars arrays n => ?_⟩
  exact (run_replaceAll hlabel (h V A sem scalars arrays) n).symm

/-! ### What a pass puts in place of an instruction -/

theorem reuseAt_eq_some {facts : OrderedSet Computation} {i j : Instr}
    (h : reuseAt facts i = some j) :
    ∃ x, ∃ f ∈ facts, i = .assign (.var x) f.value ∧ j = .assign (.var x) (.var f.target) := by
  unfold reuseAt at h
  split at h
  case h_1 x value =>
    split at h
    case isTrue =>
      obtain ⟨f, hf, rfl⟩ := Option.map_eq_some_iff.1 h
      have hvalue := List.find?_some hf
      simp only [Bool.and_eq_true, decide_eq_true_eq] at hvalue
      exact ⟨x, f, List.mem_of_find?_eq_some hf, by rw [hvalue.1], rfl⟩
    case isFalse => cases h
  case h_2 => cases h

theorem execute_reuseAt {facts : OrderedSet Computation} {c : Configuration V A} {i j : Instr}
    (hfacts : ∀ f ∈ facts, f.Valid sem c.scalars) (h : reuseAt facts i = some j)
    (target : String → Nat) : sem.execute target c j = sem.execute target c i := by
  obtain ⟨x, f, hf, rfl, rfl⟩ := reuseAt_eq_some h
  have hvalid : sem.eval c.scalars f.value = .const (c.scalars f.target) := hfacts f hf
  simp only [Semantics.execute, hvalid, Semantics.eval]

theorem sourcesOf_eq_of_sourceOf {facts : OrderedSet Copy} {x : String} {t : Expr}
    (h : sourceOf facts x = some t) : ∃ y, t = .var y ∧ Copy.sourcesOf facts x = [y] := by
  unfold sourceOf at h
  split at h
  case h_1 y hy =>
    cases h
    exact ⟨y, rfl, hy⟩
  case h_2 => cases h

theorem sourceOf_eq_some {facts : OrderedSet Copy} {x : String} {t : Expr}
    (h : sourceOf facts x = some t) : ∃ y, t = .var y ∧ (⟨x, y⟩ : Copy) ∈ facts := by
  obtain ⟨y, rfl, hy⟩ := sourcesOf_eq_of_sourceOf h
  have hmem : y ∈ Copy.sourcesOf facts x := by rw [hy]; exact List.mem_singleton.2 rfl
  obtain ⟨⟨x', y'⟩, hf, rfl⟩ := List.mem_map.1 hmem
  obtain ⟨hcopy, hx⟩ := List.mem_filter.1 hf
  cases of_decide_eq_true hx
  exact ⟨_, rfl, hcopy⟩

theorem forwardAt_eq_some {facts : OrderedSet Copy} {i j : Instr} (h : forwardAt facts i = some j) :
    j = i.substitute (sourceOf facts) := by
  unfold forwardAt at h
  dsimp only at h
  split at h
  · cases h
  · cases h
    rfl

theorem execute_forwardAt {facts : OrderedSet Copy} {c : Configuration V A} {i j : Instr}
    (hfacts : ∀ f ∈ facts, f.Valid c.scalars) (h : forwardAt facts i = some j)
    (target : String → Nat) : sem.execute target c j = sem.execute target c i := by
  rw [forwardAt_eq_some h]
  refine sem.execute_substitute target c (fun x t ht => ?_) i
  obtain ⟨y, rfl, hf⟩ := sourceOf_eq_some ht
  rw [Semantics.eval, show c.scalars x = c.scalars y from hfacts _ hf]

theorem substitute_eq_label {f : String → Option Expr} {i : Instr} {l : String} :
    i.substitute f = .label l ↔ i = .label l := by
  cases i with
  | assign t v => cases t <;> simp [Instr.substitute]
  | _ => simp [Instr.substitute]

/-- The node of a position of a run, and the facts there. -/
theorem position?_of_getElem? {g : FlowGraph} {name : String} {body : List Instr}
    (hg : g.IsGraphOf name body) {k : Nat} {i : Instr} (hi : body[k]? = some i) :
    g.position? name k = some (nodeOf body.length k) := by
  have hk := (List.getElem?_eq_some_iff.1 hi).1
  rw [hg.position_eq k hk, nodeOf_of_lt hk]

theorem apply_eq_ok {p : Pass} {f f' : Procedure} {cap count : Nat}
    (h : p.apply f cap = .ok (f', count)) : ∃ change, p.changes f cap = .ok change ∧
      f' = { f with body := (replaceAll change f.body).1 } := by
  obtain ⟨change, hchange, h⟩ := Outcome.bind_eq_ok.1 h
  cases h
  exact ⟨change, hchange, rfl⟩

/-- **A pass keeps runs.** -/
theorem apply_lockStep {p : Pass} {f f' : Procedure} {cap count : Nat}
    (h : p.apply f cap = .ok (f', count)) : LockStep f.body f'.body := by
  obtain ⟨change, hchange, rfl⟩ := apply_eq_ok h
  show LockStep f.body (replaceAll change f.body).1
  obtain ⟨g, hg, hchange⟩ := Outcome.bind_eq_ok.1 hchange
  have hg := FlowGraph.ofProcedure_isGraphOf hg
  cases p with
  | reuse =>
    obtain ⟨s, hs, hchange⟩ := Outcome.bind_eq_ok.1 hchange
    cases hchange
    refine lockStep_replaceAll (fun k i j hi hj l => ?_)
      fun V A sem scalars arrays n i j hi hj target => ?_
    · obtain ⟨node, -, hj⟩ := Option.bind_eq_some_iff.1 hj
      obtain ⟨x, f, -, rfl, rfl⟩ := reuseAt_eq_some hj
      simp
    · obtain ⟨facts, hfacts, hvalid⟩ := (tracks_available sem).run hg hs scalars arrays n
      rw [position?_of_getElem? hg hi, Option.bind_some, Flow.Solution.factsAt, hfacts,
        Option.getD_some] at hj
      exact execute_reuseAt hvalid hj target
  | forward =>
    obtain ⟨s, hs, hchange⟩ := Outcome.bind_eq_ok.1 hchange
    cases hchange
    refine lockStep_replaceAll (fun k i j hi hj l => ?_)
      fun V A sem scalars arrays n i j hi hj target => ?_
    · obtain ⟨node, -, hj⟩ := Option.bind_eq_some_iff.1 hj
      rw [forwardAt_eq_some hj]
      exact substitute_eq_label
    · obtain ⟨facts, hfacts, hvalid⟩ := (tracks_copies sem).run hg hs scalars arrays n
      rw [position?_of_getElem? hg hi, Option.bind_some, Flow.Solution.factsAt, hfacts,
        Option.getD_some] at hj
      exact execute_forwardAt hvalid hj target

end Pass

/-! ### The optimizer -/

/-- Two procedures have the same name and parameters, and bodies whose runs agree. -/
structure Procedure.LockStep (f g : Procedure) : Prop where
  name_eq : f.name = g.name
  parameters_eq : f.parameters = g.parameters
  body : ParLoop.LockStep f.body g.body

theorem Procedure.LockStep.refl (f : Procedure) : f.LockStep f := ⟨rfl, rfl, .refl _⟩

/-- Two programs have loop bodies whose runs agree, and procedures of the same keys whose runs
agree. -/
structure Program.LockStep (p q : Program) : Prop where
  body : ParLoop.LockStep p.body q.body
  procedures : ∀ key, Option.Rel Procedure.LockStep (p.procedures.find? key)
    (q.procedures.find? key)

theorem Program.LockStep.refl (p : Program) : p.LockStep p := by
  refine ⟨.refl _, fun key => ?_⟩
  cases p.procedures.find? key with
  | none => exact .none
  | some f => exact .some (.refl f)

namespace Optimizer

theorem keptByPasses_lockStep (f : Procedure) (cap : Nat) : KeptByPasses cap f.LockStep := by
  rintro pass g g' count ⟨hname, hparameters, hbody⟩ happly
  have hlock := hbody.trans (Pass.apply_lockStep happly)
  obtain ⟨change, -, rfl⟩ := Pass.apply_eq_ok happly
  exact ⟨hname, hparameters, hlock⟩

/-- **The optimizer keeps runs**: whether it succeeds or stops with an error, the loop body and
every procedure that it leaves agree with those it was given after every number of steps. -/
theorem optimizer_lockStep (p : Program) (cap maxRounds : Nat) :
    p.LockStep (left (work cap maxRounds (p, {}))).1 := by
  refine work_induct Procedure.LockStep.refl (keptByPasses_lockStep · cap)
    (fun q g hq hg => ⟨hg.body, hq.procedures⟩) (fun e he q g hq hg => ?_) (.refl p) maxRounds
  refine ⟨hq.body, fun key' => ?_⟩
  rw [NameMap.find?_insert]
  split
  case isTrue h =>
    rw [← h, NameMap.find?_of_mem he]
    exact .some hg
  case isFalse => exact hq.procedures key'

end Optimizer

end ParLoop
