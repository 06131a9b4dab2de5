import ParLoop.Listing.Parse
import ParLoop.Proofs.AliasGroup.Components
import ParLoop.Proofs.Body.Calls
import ParLoop.Proofs.FlowGraph.CallFree
import ParLoop.Proofs.Optimize.LockStep

/-!
# Copies around calls

No copy is known behind an instruction that calls a procedure, since the callee may assign a
variable that is visible outside. But the copies that are known before the instruction are used for
all that it reads, also for what it reads after its calls. So reading copies at their sources keeps
the runs of a procedure if what is read behind a call of the same instruction is the procedure's own
(`apply_forward_run`), and else it may change them (`forward_reads_behind_call`).
-/

namespace ParLoop

variable {V A : Type}

/-- An instruction without calls changes no scalar but the one that it gives a value. -/
theorem CallSemantics.changesOne_execute (sem : CallSemantics V A) (own : List String)
    (target : String → Nat) (c : Configuration V A) {i : Instr} (h : i.hasCall = false) :
    i.ChangesOne c.scalars (sem.execute own target c i).scalars := by
  have hsettle : ∀ e ∈ i.expressions, ∀ s, (sem.settle own e s).2.scalars = s.scalars :=
    fun e he => sem.scalars_settle (Instr.hasCall_of_mem_expressions h he)
  constructor
  · intro hi
    cases i with
    | declare x => cases hi
    | assign t v =>
      cases t with
      | var x => cases hi
      | access a is =>
        have hvalue := hsettle v (by simp [Instr.expressions])
        exact (hvalue _).trans (hsettle (.access a is) (by simp [Instr.expressions]) _)
      | _ => exact hsettle v (by simp [Instr.expressions]) _
    | branch condition l => exact hsettle condition (by simp [Instr.expressions]) _
    | call p es => cases h
    | _ => rfl
  · intro x hi
    cases i with
    | declare y =>
      cases hi
      exact ⟨_, rfl⟩
    | assign t v =>
      cases t with
      | var y =>
        cases hi
        let r := sem.settle own v ⟨c.scalars, c.arrays⟩
        refine ⟨r.1 r.2, ?_⟩
        show Function.update r.2.scalars x (r.1 r.2) = Function.update c.scalars x (r.1 r.2)
        rw [hsettle v (by simp [Instr.expressions])]
      | _ => cases hi
    | _ => cases hi
  · rintro x y rfl
    rfl

/-- The copies that are known where a run is hold there. -/
theorem CallSemantics.valid_factsAt_copies (sem : CallSemantics V A) (own : List String)
    {g : FlowGraph} {name : String} {body : List Instr} {cap : Nat} {s : Flow.Solution Copy}
    (hg : g.IsGraphOf name body) (hs : Flow.copies.solve g cap = .ok s) (scalars : String → V)
    (arrays : A) (n : Nat) {i : Instr}
    (hi : body[((sem.execute own).run body ⟨0, scalars, arrays⟩ n).position]? = some i) {node : Nat}
    (hnode : g.position? name ((sem.execute own).run body ⟨0, scalars, arrays⟩ n).position =
      some node) :
    ∀ f ∈ s.factsAt node, f.Valid ((sem.execute own).run body ⟨0, scalars, arrays⟩ n).scalars := by
  obtain ⟨facts, hfacts, hvalid⟩ := exists_facts_of_run (a := Flow.copies)
    (sem.follows_execute own) rfl rfl rfl (fun _ => rfl)
    (fun node i facts target c => valid_copyAt (sem.changesOne_execute own target c)) hg hs scalars
    arrays n
  rw [Pass.position?_of_getElem? hg hi] at hnode
  cases hnode
  rwa [Flow.Solution.factsAt, hfacts, Option.getD_some]

namespace Pass

/-- A pass does not change what a procedure declares. -/
theorem declaredNames_replaceAll {f : Procedure} {change : Instr → Nat → Option Instr}
    (h : ∀ k i j, f.body[k]? = some i → change i k = some j →
      ∃ φ : String → Option Expr, j = i.substitute φ) :
    Procedure.declaredNames { f with body := (replaceAll change f.body).1 } = f.declaredNames := by
  have hfilter : ∀ (p : Instr → Option String) (is : List Instr),
      is.filterMap p = (is.map p).filterMap id := fun p is => by simp [List.filterMap_map]
  unfold Procedure.declaredNames
  rw [hfilter, hfilter _ f.body, map_replaceAll]
  intro k i j hi hj
  obtain ⟨φ, rfl⟩ := h k i j hi hj
  cases i with
  | assign t v => cases t <;> rfl
  | _ => rfl

/-- Where an instruction reads a copy behind one of its calls, the copy and its source are the
procedure's own. -/
def ForwardsOwn (f : Procedure) (g : FlowGraph) (s : Flow.Solution Copy) : Prop :=
  ∀ p ∈ f.body.zipIdx, ∀ node ∈ g.position? f.name p.2, ∀ x ∈ p.1.readsBehindCall,
    ∀ y ∈ Copy.sourcesOf (s.factsAt node) x, Copy.sourcesOf (s.factsAt node) x = [y] →
      x ∈ f.declaredNames ∧ y ∈ f.declaredNames

instance (f : Procedure) (g : FlowGraph) (s : Flow.Solution Copy) : Decidable (ForwardsOwn f g s) :=
  inferInstanceAs (Decidable (∀ p ∈ f.body.zipIdx, ∀ node ∈ g.position? f.name p.2,
    ∀ x ∈ p.1.readsBehindCall, ∀ y ∈ Copy.sourcesOf (s.factsAt node) x,
      Copy.sourcesOf (s.factsAt node) x = [y] → x ∈ f.declaredNames ∧ y ∈ f.declaredNames))

/-- **Reading copies at their sources keeps runs**, whatever calls do to the scalars of others, if
what is read behind a call of the same instruction is the procedure's own. -/
theorem apply_forward_run {f : Procedure} {g : FlowGraph} {s : Flow.Solution Copy} {cap : Nat}
    (hg : FlowGraph.ofProcedure f = .ok g) (hs : Flow.copies.solve g cap = .ok s)
    (hown : ForwardsOwn f g s) :
    ∃ f' count, Pass.forward.apply f cap = .ok (f', count) ∧
      ∀ (V A : Type) (sem : CallSemantics V A) (scalars : String → V) (arrays : A) (n : Nat),
        (sem.execute f'.declaredNames).run f'.body ⟨0, scalars, arrays⟩ n =
          (sem.execute f.declaredNames).run f.body ⟨0, scalars, arrays⟩ n := by
  obtain ⟨change, hchanges, hchange⟩ : ∃ change, Pass.forward.changes f cap = .ok change ∧
      ∀ i k j, change i k = some j → ∃ node, g.position? f.name k = some node ∧
        j = i.substitute (sourceOf (s.factsAt node)) := by
    refine ⟨_, Outcome.bind_eq_ok.2 ⟨g, hg, Outcome.bind_eq_ok.2 ⟨s, hs, rfl⟩⟩, fun i k j hj => ?_⟩
    obtain ⟨node, hnode, hj⟩ := Option.bind_eq_some_iff.1 hj
    exact ⟨node, hnode, forwardAt_eq_some hj⟩
  refine ⟨{ f with body := (replaceAll change f.body).1 }, (replaceAll change f.body).2,
    Outcome.bind_eq_ok.2 ⟨change, hchanges, rfl⟩, fun V A sem scalars arrays n => ?_⟩
  rw [declaredNames_replaceAll fun k i j _ hj => by
    obtain ⟨node, -, rfl⟩ := hchange i k j hj
    exact ⟨_, rfl⟩]
  have hg := FlowGraph.ofProcedure_isGraphOf hg
  refine run_replaceAll (fun k i j _ hj l => ?_) (fun n i j hi hj target => ?_) n
  · obtain ⟨node, -, rfl⟩ := hchange i k j hj
    exact substitute_eq_label
  · obtain ⟨node, hnode, rfl⟩ := hchange i _ j hj
    have hvalid := sem.valid_factsAt_copies f.declaredNames hg hs scalars arrays n hi hnode
    refine sem.execute_substitute target (fun x t ht => ?_) fun x hx t ht => ?_
    · obtain ⟨y, rfl, hy⟩ := sourceOf_eq_some ht
      exact ⟨y, rfl, (hvalid _ hy).symm⟩
    · obtain ⟨y, rfl, hy⟩ := sourcesOf_eq_of_sourceOf ht
      refine ⟨y, rfl, hown (i, _) (List.mem_zipIdx_iff_getElem?.2 hi) _ hnode x hx y ?_ hy⟩
      rw [hy]
      exact List.mem_singleton.2 rfl

/-- A procedure with a copy of its parameter and one of a variable from outside. Only the first is
read behind a call. -/
def mixedCopies : Procedure :=
  ⟨"p", ["n"], [.declare "k", .assign (.var "k") (.var "n"), .declare "t",
    .assign (.var "t") (.var "s"),
    .assign (.var "m") (.binary .add (.call "g" [.var "t"]) (.var "k"))]⟩

/-- Both copies are read at their sources. -/
theorem apply_forward_run_mixedCopies :
    ∃ f', Pass.forward.apply mixedCopies 1000 = .ok (f', 1) ∧
      f'.body = mixedCopies.body.set 4
        (.assign (.var "m") (.binary .add (.call "g" [.var "s"]) (.var "n"))) ∧
      ∀ (V A : Type) (sem : CallSemantics V A) (scalars : String → V) (arrays : A) (n : Nat),
        (sem.execute f'.declaredNames).run f'.body ⟨0, scalars, arrays⟩ n =
          (sem.execute mixedCopies.declaredNames).run mixedCopies.body ⟨0, scalars, arrays⟩ n := by
  have hforward : (Pass.forward.apply mixedCopies 1000).map (fun r => (r.1.body, r.2)) =
      .ok (mixedCopies.body.set 4
        (.assign (.var "m") (.binary .add (.call "g" [.var "s"]) (.var "n"))), 1) := by
    decide +kernel
  have hfound : (do
      let g ← FlowGraph.ofProcedure mixedCopies
      let s ← Flow.copies.solve g 1000
      return decide (ForwardsOwn mixedCopies g s)) = .ok true := by decide +kernel
  obtain ⟨g, hg, hfound⟩ := Outcome.bind_eq_ok.1 hfound
  obtain ⟨s, hs, hfound⟩ := Outcome.bind_eq_ok.1 hfound
  obtain ⟨f', count, happly, hrun⟩ :=
    apply_forward_run hg hs (of_decide_eq_true (Except.ok.inj hfound))
  rw [happly] at hforward
  obtain ⟨hbody, hcount⟩ := Prod.ext_iff.1 (Except.ok.inj hforward)
  have hcount : count = 1 := hcount
  exact ⟨f', hcount ▸ happly, hbody, hrun⟩

/-! ### A copy that is read behind a call -/

/-- A loop that copies a variable from outside, and reads the copy after a call that assigns the
variable. -/
def sharedCopy : Program :=
  (Program.ofBody "i" [.declare "k", .declare "x", .assign (.var "k") (.var "s"),
    .assign (.var "x") (.binary .add (.var "k") (.call "f" []))]).withProcedure
      ⟨"f", [], [.assign (.var "s") (.int 5)]⟩

/-- Integers, with calls that give `s` the value five and yield zero. -/
def assigningCalls : CallSemantics Int Unit where
  integer n := n
  double _ := 0
  negate v := -v
  operator := Semantics.arithmetic
  conditional u v w := if u = 0 then w else v
  element _ _ _ _ := 0
  call _ _ s := (0, { s with scalars := Function.update s.scalars "s" 5 })
  store _ _ _ _ _ := ()
  fresh _ := 0
  holds v := v ≠ 0

/-- The pass reads the variable itself, which the call has assigned by then. -/
theorem forward_reads_behind_call :
    Listing.parse "proc f() \x7b s = 5; \x7d loop i \x7b var k; var x; k = s; x = k + f(); \x7d" =
        .ok sharedCopy ∧
      ∃ f', Pass.forward.apply sharedCopy.root 1000 = .ok (f', 1) ∧
        ((assigningCalls.execute sharedCopy.root.declaredNames).run sharedCopy.root.body
          ⟨0, fun _ => 0, ()⟩ 4).scalars "x" = 0 ∧
        ((assigningCalls.execute f'.declaredNames).run f'.body
          ⟨0, fun _ => 0, ()⟩ 4).scalars "x" = 5 := by
  refine ⟨by decide +kernel, ⟨loopName, [], sharedCopy.body.set 3
    (.assign (.var "x") (.binary .add (.var "s") (.call "f" [])))⟩, by decide +kernel, ?_, ?_⟩
  · decide
  · decide

end Pass

end ParLoop
