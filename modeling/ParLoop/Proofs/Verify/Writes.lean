import ParLoop.Proofs.Flow.Body
import ParLoop.Proofs.Outcome
import ParLoop.Verify.Loop

/-!
# Writes to shared variables

`Undeclared body x` are the positions that control can reach before the body has declared a name. An
assignment to the name there is found by `undeclaredWrites` (`mem_undeclaredWrites`). If the check
of a graph succeeds, the loop body has no such assignment (`assignsOnly_root`), and each procedure
of the graph only ones to names of its own (`assignsOnly_procedure`).
-/

namespace ParLoop

/-- Control can reach a position of a body without passing a declaration of a name. -/
inductive Undeclared (body : List Instr) (x : String) : Nat → Prop where
  | start : Undeclared body x 0
  | step {k k' : Nat} (h : Undeclared body x k) (hk : body[k]? ≠ some (.declare x))
      (hstep : Continues body k k') : Undeclared body x k'

/-- Every assignment of a body that control can reach before the assigned name is declared is to one
of some names. -/
def AssignsOnly (body : List Instr) (own : List String) : Prop :=
  ∀ x k value, body[k]? = some (.assign (.var x) value) → Undeclared body x k → x ∈ own

namespace Verify

variable {f : Procedure} {known s : OrderedSet String} {cap : Nat} {x : String}

/-- What is declared on every path is not declared where control can come without it. -/
theorem not_declared {g : FlowGraph} {r : Flow.Solution String} (hg : g.IsGraphOf f.name f.body)
    (h : (Flow.declared "declared-names" .edges OrderedSet.inter known).solve g cap = .ok r)
    (hx : x ∉ known) {k : Nat} (hk : Undeclared f.body x k) :
    ∃ facts, r.input? (nodeOf f.body.length k) = some facts ∧ x ∉ facts := by
  have hj := Flow.Analysis.isJoin_of_inter
    (a := Flow.declared "declared-names" .edges OrderedSet.inter known) rfl g
  have habsent : ∀ {stored incoming : OrderedSet String}, x ∉ incoming →
      stored.inter incoming = stored → x ∉ stored := by
    intro stored incoming hin heq hstored
    rw [← heq] at hstored
    exact hin (OrderedSet.mem_inter.1 hstored).2
  induction hk with
  | start =>
    obtain ⟨a, b, -, hext, hb, hflow⟩ := Flow.solve_entry hg rfl hj h
    refine ⟨b, hb, habsent ?_ hflow⟩
    rw [Flow.leaving_start hg]
    exact habsent hx hext
  | step hk hne hstep ih =>
    obtain ⟨a, ha, hxa⟩ := ih
    obtain ⟨i, hi, -⟩ := id hstep
    rw [nodeOf_of_lt (List.getElem?_eq_some_iff.1 hi).1] at ha
    obtain ⟨b, hb, hflow⟩ := Flow.solve_step hg rfl hj h hstep ha
    refine ⟨b, hb, habsent ?_ hflow⟩
    rw [Flow.leaving_instr hg hi]
    rw [hi] at hne
    cases i with
    | declare y =>
      have hy : x ≠ y := by
        rintro rfl
        exact hne rfl
      show x ∉ a.insert y
      simp [hy, hxa]
    | _ => exact hxa

/-- **An assignment to a name that control can reach before its declaration is found.** -/
theorem mem_undeclaredWrites (h : undeclaredWrites f known cap = .ok s) (hx : x ∉ known) {k : Nat}
    {value : Expr} (hk : Undeclared f.body x k) (hi : f.body[k]? = some (.assign (.var x) value)) :
    x ∈ s := by
  obtain ⟨g, hg, h⟩ := Outcome.bind_eq_ok.1 h
  obtain ⟨r, hr, h⟩ := Outcome.bind_eq_ok.1 h
  cases h
  have hg := FlowGraph.ofProcedure_isGraphOf hg
  obtain ⟨facts, hfacts, hnot⟩ := not_declared hg hr hx hk
  rw [nodeOf_of_lt (List.getElem?_eq_some_iff.1 hi).1] at hfacts
  rw [OrderedSet.mem_ofList, List.mem_filterMap]
  refine ⟨(k + 2, _), hg.mem_instrNodes.2 ⟨k, hi, rfl⟩, ?_⟩
  simp [hfacts, hnot]

/-- A procedure of which no write is found assigns names known at its start only. -/
theorem assignsOnly_of_undeclaredWrites {own : List String}
    (h : undeclaredWrites f (.ofList own) cap = .ok s) (hs : ∀ x, x ∉ s) :
    AssignsOnly f.body own := by
  intro x k value hi hk
  by_cases hx : x ∈ own
  · exact hx
  · exact absurd (mem_undeclaredWrites h (by simpa using hx) hk hi) (hs x)

/-- What is collected over some names is what is found for one of them. -/
theorem foldlM_union_eq_ok {find : String → Except AnalysisError (OrderedSet String)}
    {names : List String} {start : OrderedSet String}
    (h : names.foldlM (fun s name => return s.union (← find name)) start = .ok s) :
    (∀ name ∈ names, ∃ t, find name = .ok t) ∧
      ∀ x, x ∈ s ↔ x ∈ start ∨ ∃ name ∈ names, ∃ t, find name = .ok t ∧ x ∈ t := by
  induction names generalizing start with
  | nil =>
    cases h
    simp
  | cons name names ih =>
    rw [List.foldlM_cons] at h
    obtain ⟨u, hu, h⟩ := Outcome.bind_eq_ok.1 h
    obtain ⟨t, ht, hu⟩ := Outcome.bind_eq_ok.1 hu
    cases hu
    obtain ⟨hfound, hmem⟩ := ih h
    refine ⟨List.forall_mem_cons.2 ⟨⟨t, ht⟩, hfound⟩, fun x => ?_⟩
    rw [hmem, OrderedSet.mem_union, or_assoc]
    simp [ht]

/-- If the check of a graph succeeds, no procedure of the graph writes a shared variable. -/
theorem sharedWritesOf_of_checkWrites {p : Program} {g : FlowGraph}
    (h : checkWrites p g cap = .ok none) {name : String} (hname : name ∈ g.boundaries.names) :
    ∃ t, sharedWritesOf p g cap name = .ok t ∧ ∀ x, x ∉ t := by
  obtain ⟨s, hs, h⟩ := Outcome.bind_eq_ok.1 h
  have hempty : s.isEmpty = true := by
    cases he : s.isEmpty with
    | true => rfl
    | false =>
      rw [he] at h
      cases h
  obtain ⟨hfound, hmem⟩ := foldlM_union_eq_ok hs
  obtain ⟨t, ht⟩ := hfound name hname
  refine ⟨t, ht, fun x hx => ?_⟩
  have hx : x ∈ s.toList := (hmem x).2 (Or.inr ⟨name, hname, t, ht, hx⟩)
  rw [OrderedSet.isEmpty, List.isEmpty_iff] at hempty
  rw [hempty] at hx
  cases hx

/-- If the check succeeds, the loop body assigns no name that it has not declared. -/
theorem assignsOnly_root {p : Program} {g : FlowGraph} (h : checkWrites p g cap = .ok none)
    (hroot : g.root = loopName) (hname : loopName ∈ g.boundaries.names) :
    AssignsOnly p.body [] := by
  obtain ⟨t, ht, hnone⟩ := sharedWritesOf_of_checkWrites h hname
  rw [sharedWritesOf, if_pos hroot.symm] at ht
  have ht : undeclaredWrites p.root (.ofList []) cap = .ok t := ht
  exact assignsOnly_of_undeclaredWrites ht hnone

/-- If the check succeeds, a procedure of the graph assigns no name of others. -/
theorem assignsOnly_procedure {p : Program} {g : FlowGraph} {name : String}
    (h : checkWrites p g cap = .ok none) (hname : name ∈ g.boundaries.names)
    (hroot : name ≠ g.root) (hf : p.procedures.find? name = some f) :
    AssignsOnly f.body (resultName f.name :: f.parameters) := by
  obtain ⟨t, ht, hnone⟩ := sharedWritesOf_of_checkWrites h hname
  rw [sharedWritesOf, if_neg hroot, hf] at ht
  exact assignsOnly_of_undeclaredWrites ht hnone

/-- A loop is parallelizable if it passes both checks. -/
theorem verdict_eq_parallelizable_iff {p : Program} {interprocedural : Bool} :
    verdict p interprocedural cap = .ok .parallelizable ↔
      ∃ g calls, FlowGraph.ofProgram p interprocedural = .ok (g, calls) ∧
        checkWrites p g cap = .ok none ∧ arraysOf p g cap = .ok none := by
  unfold verdict
  rw [Outcome.bind_eq_ok, Prod.exists]
  refine exists_congr fun g => exists_congr fun calls => and_congr_right fun _ => ?_
  rw [Outcome.bind_eq_ok]
  constructor
  · rintro ⟨writes, hwrites, h⟩
    cases writes with
    | some r => cases h
    | none =>
      obtain ⟨arrays, harrays, h⟩ := Outcome.bind_eq_ok.1 h
      cases arrays with
      | some r => cases h
      | none => exact ⟨hwrites, harrays⟩
  · rintro ⟨hwrites, harrays⟩
    refine ⟨none, hwrites, ?_⟩
    dsimp only
    rw [harrays]
    rfl

/-- What a loop passes to be parallelizable. -/
theorem verdict_eq_parallelizable {p : Program} {interprocedural : Bool}
    (h : verdict p interprocedural cap = .ok .parallelizable) :
    ∃ g calls facts storages, FlowGraph.ofProgram p interprocedural = .ok (g, calls) ∧
      checkWrites p g cap = .ok none ∧ (Flow.dependence p.counter).solve g cap = .ok facts ∧
      (Flow.aliases (AliasGroup.seeds (AliasGroup.ofProgram p))).solve g cap = .ok storages ∧
      checkArrays g facts storages = .ok none := by
  obtain ⟨g, calls, hg, hwrites, harrays⟩ := verdict_eq_parallelizable_iff.1 h
  obtain ⟨facts, hfacts, harrays⟩ := Outcome.bind_eq_ok.1 harrays
  obtain ⟨storages, hstorages, harrays⟩ := Outcome.bind_eq_ok.1 harrays
  exact ⟨g, calls, facts, storages, hg, hwrites, hfacts, hstorages, harrays⟩

end Verify

end ParLoop
