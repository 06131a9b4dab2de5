import ParLoop.Proofs.FlowGraph.Outline
import ParLoop.Proofs.FlowGraph.Program
import ParLoop.Proofs.Verify.Writes

/-!
# The shared variables that are written

A name is missing from the declared names at a position exactly if control can come there without
passing its declaration. So `undeclaredWrites` finds the assignments before a declaration and no
others (`mem_undeclaredWrites_iff`), and the shared writes of a graph are those of its procedures,
unless a flow problem takes too many visits (`sharedWrites_cases`).
-/

namespace ParLoop

/-- The procedure of a program that stands under a name, the loop body being one. -/
def Program.procedure? (p : Program) (name : String) : Option Procedure :=
  if name = loopName then some p.root else p.procedures.find? name

/-- A procedure of a program writes a variable that is not its own: control can come from its
beginning to an assignment and pass no declaration of the variable. -/
def Program.WritesShared (p : Program) (name x : String) : Prop :=
  ∃ f, p.procedure? name = some f ∧ x ∉ f.parameters ∧ (name ≠ loopName → x ≠ resultName f.name) ∧
    ∃ k value, f.body[k]? = some (.assign (.var x) value) ∧ Undeclared f.body x k

/-- The names that a procedure has without declaring them. -/
def Procedure.ownNames (f : Procedure) (name : String) : List String :=
  if name = loopName then [] else resultName f.name :: f.parameters

theorem Procedure.mem_ownNames {p : Program} {name x : String} {f : Procedure}
    (hf : p.procedure? name = some f) :
    x ∈ f.ownNames name ↔ x ∈ f.parameters ∨ name ≠ loopName ∧ x = resultName f.name := by
  unfold ownNames
  split
  case isTrue hname =>
    rw [Program.procedure?, if_pos hname] at hf
    cases hf
    simp [Program.root, hname]
  case isFalse hname => simp [hname, or_comm]

/-- The procedures of a graph are supplied, and their labels are in order. -/
theorem FlowGraph.exists_procedure? {p : Program} {interprocedural : Bool} {g : FlowGraph}
    {calls : CallGraph} (hg : ofProgram p interprocedural = .ok (g, calls)) {name : String}
    (hname : name ∈ g.boundaries.names) :
    ∃ f, p.procedure? name = some f ∧ WellLabelled f.body := by
  unfold Program.procedure?
  cases interprocedural with
  | true =>
    obtain ⟨d, hd, rfl, -⟩ := exists_finished hg
    by_cases hloop : name = loopName
    · exact ⟨p.root, if_pos hloop, hd.root_labels⟩
    · rw [boundaries_settle] at hname
      obtain ⟨⟨y, b⟩, hmem, rfl⟩ := List.mem_map.1 hname
      have hentered := (hd.valid.boundary y b (NameMap.find?_of_mem hmem)).1
      obtain ⟨f, hf, hlabels, -⟩ := (hd.opened_of_ne hentered hloop).body
      exact ⟨f, (if_neg hloop).trans hf, hlabels⟩
  | false =>
    have hg := Build.complete_isGraphOf hg
    rw [hg.boundaries_eq] at hname
    exact ⟨p.root, if_pos (List.mem_singleton.1 hname), hg.labelsOnce, hg.target_mem⟩

namespace Verify

variable {f : Procedure} {known s : OrderedSet String} {cap : Nat} {x : String}

/-- Only the node of a position stands for it. -/
theorem eq_of_nodeOf_eq {length m k : Nat} (h : k + 2 = nodeOf length m) : m = k := by
  unfold nodeOf at h
  split at h <;> omega

/-- Where a name is not declared, control can come without its declaration. -/
theorem undeclared_of_not_mem {g : FlowGraph} {r : Flow.Solution String}
    (hg : g.IsGraphOf f.name f.body)
    (h : (Flow.declared "declared-names" .edges OrderedSet.inter known).solve g cap = .ok r)
    {k : Nat} {facts : OrderedSet String} (hfacts : r.input? (k + 2) = some facts)
    (hx : x ∉ facts) : x ∉ known ∧ Undeclared f.body x k := by
  let P : Nat → OrderedSet String → Prop := fun v X => ∀ x ∉ X, x ∉ known ∧
    ∀ k, k + 2 = v → Undeclared f.body x k
  have hP : P (k + 2) facts := by
    refine Flow.Analysis.solve_induct (P := P) hg.coherent (fun x hx => ⟨hx, fun k hk => ?_⟩) ?_
      (fun v X Y hX hY x hx => ?_) h hfacts
    · exact absurd (hk.trans hg.start_eq) (Nat.succ_ne_zero _)
    · rintro ⟨u, v⟩ he X hX x hx
      rcases (hg.mem_edges u v).1 ((Flow.mem_flowsFrom_forward hg rfl).1 he) with
        ⟨rfl, rfl⟩ | ⟨j, j', hstep, rfl, rfl⟩
      · rw [Flow.leaving_start hg] at hx
        refine ⟨(hX x hx).1, fun k hk => ?_⟩
        cases eq_of_nodeOf_eq hk
        exact .start
      · obtain ⟨i, hi, -⟩ := id hstep
        rw [Flow.leaving_instr hg hi] at hx
        have hpassed : x ∉ X ∧ i ≠ .declare x := by
          cases i with
          | declare y =>
            have hx : x ∉ X.insert y := hx
            simp only [OrderedSet.mem_insert, not_or] at hx
            exact ⟨hx.2, fun h => hx.1 (Instr.declare.inj h).symm⟩
          | _ => exact ⟨hx, nofun⟩
        obtain ⟨hknown, hj⟩ := hX x hpassed.1
        refine ⟨hknown, fun k hk => ?_⟩
        cases eq_of_nodeOf_eq hk
        refine (hj j rfl).step (fun h => hpassed.2 ?_) hstep
        exact Option.some_inj.1 (hi.symm.trans h)
    · rcases Classical.not_and_iff_not_or_not.1 (mt OrderedSet.mem_inter.2 hx) with hx | hx
      · exact hX x hx
      · exact hY x hx
  obtain ⟨hknown, hk⟩ := hP x hx
  exact ⟨hknown, hk k rfl⟩

/-- **The undeclared writes are the assignments before a declaration.** -/
theorem mem_undeclaredWrites_iff (h : undeclaredWrites f known cap = .ok s) : x ∈ s ↔ x ∉ known ∧
    ∃ k value, f.body[k]? = some (.assign (.var x) value) ∧ Undeclared f.body x k := by
  constructor
  · obtain ⟨g, hg, h⟩ := Outcome.bind_eq_ok.1 h
    obtain ⟨r, hr, h⟩ := Outcome.bind_eq_ok.1 h
    cases h
    have hg := FlowGraph.ofProcedure_isGraphOf hg
    rw [OrderedSet.mem_ofList, List.mem_filterMap]
    rintro ⟨⟨u, i⟩, hmem, hx⟩
    obtain ⟨k, hi, rfl⟩ := hg.mem_instrNodes.1 hmem
    split at hx
    case h_1 u y value heq =>
      cases heq
      obtain ⟨facts, hfacts, hx⟩ := Option.bind_eq_some_iff.1 hx
      split at hx
      case isTrue => cases hx
      case isFalse hnot =>
        cases hx
        obtain ⟨hknown, hk⟩ := undeclared_of_not_mem hg hr hfacts (by simpa using hnot)
        exact ⟨hknown, k, value, hi, hk⟩
    case h_2 => cases hx
  · rintro ⟨hx, k, value, hi, hk⟩
    exact mem_undeclaredWrites h hx hk hi

variable {p : Program} {g : FlowGraph} {name : String}

theorem sharedWritesOf_eq (hroot : g.root = loopName) (hf : p.procedure? name = some f)
    (cap : Nat) :
    sharedWritesOf p g cap name = undeclaredWrites f (.ofList (f.ownNames name)) cap := by
  unfold sharedWritesOf Procedure.ownNames
  unfold Program.procedure? at hf
  rw [hroot]
  split at hf
  case isTrue hname =>
    cases hf
    rw [if_pos hname, if_pos hname]
    rfl
  case isFalse hname => rw [if_neg hname, if_neg hname, hf]

/-- The shared writes that are found in a procedure are those that it makes. -/
theorem mem_sharedWritesOf_iff (hroot : g.root = loopName) (hf : p.procedure? name = some f)
    (h : sharedWritesOf p g cap name = .ok s) : x ∈ s ↔ p.WritesShared name x := by
  rw [sharedWritesOf_eq hroot hf] at h
  rw [mem_undeclaredWrites_iff h, OrderedSet.mem_ofList, Procedure.mem_ownNames hf, not_or, not_and,
    and_assoc]
  constructor
  · exact fun hx => ⟨f, hf, hx⟩
  · rintro ⟨f', hf', hx⟩
    cases hf.symm.trans hf'
    exact hx

/-- The search in a procedure fails only if its flow problem takes too many visits. -/
theorem undeclaredWrites_eq_error {e : AnalysisError} (hf : WellLabelled f.body)
    (h : undeclaredWrites f known cap = .error e) :
    ∃ g, FlowGraph.ofProcedure f = .ok g ∧
      (Flow.declared "declared-names" .edges OrderedSet.inter known).solve g cap = .error e ∧
      e = .notConverged "declared-names" cap := by
  obtain ⟨g, hg⟩ := exists_ofProcedure_iff.2 hf
  rcases Outcome.bind_eq_error.1 h with h | ⟨g', hg', h⟩
  · cases hg.symm.trans h
  · cases hg.symm.trans hg'
    rcases Outcome.bind_eq_error.1 h with h | ⟨r, -, h⟩
    · exact ⟨g, hg, h, Flow.solve_eq_error h⟩
    · cases h

/-- **The shared writes of a graph are those of its procedures**, unless the flow problem of one of
them takes too many visits. -/
theorem sharedWrites_cases {interprocedural : Bool} {calls : CallGraph}
    (hg : FlowGraph.ofProgram p interprocedural = .ok (g, calls)) (cap : Nat) :
    (∃ s, sharedWrites p g cap = .ok s ∧
      ∀ x, x ∈ s ↔ ∃ name ∈ g.boundaries.names, p.WritesShared name x) ∨
    ∃ name ∈ g.boundaries.names, ∃ f h, p.procedure? name = some f ∧
      FlowGraph.ofProcedure f = .ok h ∧
      (Flow.declared "declared-names" .edges OrderedSet.inter
        (.ofList (f.ownNames name))).solve h cap = .error (.notConverged "declared-names" cap) ∧
      sharedWrites p g cap = .error (.notConverged "declared-names" cap) := by
  obtain ⟨hroot, -⟩ := FlowGraph.boundary?_ofProgram hg
  cases hs : sharedWrites p g cap with
  | ok s =>
    refine Or.inl ⟨s, rfl, fun x => ?_⟩
    rw [(foldlM_union_eq_ok hs).2]
    simp only [OrderedSet.not_mem_empty, false_or]
    refine exists_congr fun name => and_congr_right fun hname => ?_
    obtain ⟨f, hf, -⟩ := FlowGraph.exists_procedure? hg hname
    obtain ⟨t, ht⟩ := (foldlM_union_eq_ok hs).1 name hname
    rw [← mem_sharedWritesOf_iff hroot hf ht, ht]
    simp
  | error e =>
    obtain ⟨name, hname, u, he⟩ := Outcome.exists_of_foldlM_eq_error hs
    obtain ⟨f, hf, hlabels⟩ := FlowGraph.exists_procedure? hg hname
    rcases Outcome.bind_eq_error.1 he with he | ⟨t, -, he⟩
    · rw [sharedWritesOf_eq hroot hf] at he
      obtain ⟨h, hh, hsolve, rfl⟩ := undeclaredWrites_eq_error hlabels he
      exact Or.inr ⟨name, hname, f, h, hf, hh, hsolve, rfl⟩
    · cases he

/-- A loop that calls a procedure which declares a variable on one of two paths. The loop itself
writes one variable before its declaration, and one where control does not come. -/
def lateDeclarations : Program :=
  (Program.ofBody "i" [.declare "x", .label "back", .assign (.var "y") (.var "x"), .declare "y",
    .assign (.var "x") (.call "put" [.var "i"]), .jump "back", .assign (.var "z") (.var "x")])
    |>.withProcedure ⟨"put", ["n"], [.branch (.var "n") "skip", .declare "t", .label "skip",
      .assign (.var "t") (.var "n"), .assign (.var "n") (.int 0),
      .assign (.var (resultName "put")) (.var "t"), .assign (.var "total") (.var "t")]⟩

theorem sharedWrites_lateDeclarations :
    ∃ g calls s, FlowGraph.ofProgram lateDeclarations true = .ok (g, calls) ∧
      sharedWrites lateDeclarations g 1000 = .ok s ∧ s.toList = ["t", "total", "y"] ∧
      ∀ x, x ∈ s ↔ ∃ name ∈ g.boundaries.names, lateDeclarations.WritesShared name x := by
  have hfound : (do
      let r ← FlowGraph.ofProgram lateDeclarations true
      return (← sharedWrites lateDeclarations r.1 1000).toList) = .ok ["t", "total", "y"] := by
    decide +kernel
  obtain ⟨⟨g, calls⟩, hg, hfound⟩ := Outcome.bind_eq_ok.1 hfound
  obtain ⟨s, hs, hfound⟩ := Outcome.bind_eq_ok.1 hfound
  refine ⟨g, calls, s, hg, hs, Except.ok.inj hfound, ?_⟩
  rcases sharedWrites_cases hg 1000 with ⟨t, ht, hmem⟩ | ⟨-, -, -, -, -, -, -, hfails⟩
  · cases hs.symm.trans ht
    exact hmem
  · cases hs.symm.trans hfails

end Verify

end ParLoop
