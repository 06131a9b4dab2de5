import ParLoop.Listing.Parse
import ParLoop.Proofs.FlowGraph.Program
import ParLoop.Proofs.Verify.Writes

/-!
# Writes of called procedures

If a loop passes the check that goes through its calls, then neither the loop body nor a procedure
it calls assigns a variable of others: every assignment that control can reach before the assigned
name is declared is to a parameter or to the result of the procedure (`assignsOnly_of_called`).

The check looks into procedures by name, and the name of the loop body is taken. A procedure of this
name is never looked into, nor is what is called through it alone: `shadowedLoop` passes although
its procedure assigns a variable from outside (`shadowedLoop_escapes`).
-/

namespace ParLoop.Verify

variable {p : Program} {cap : Nat}

/-- **If a loop passes the check through its calls, the loop body assigns no variable that it has
not declared, and a called procedure assigns only its parameters, its result and what it has
declared.** A procedure that is named as the loop body is not looked into. -/
theorem assignsOnly_of_called (h : verdict p true cap = .ok .parallelizable) :
    AssignsOnly p.body [] ∧
      ∀ name, p.Called (· ≠ loopName) name → name ≠ loopName →
        ∃ f, p.procedures.find? name = some f ∧
          AssignsOnly f.body (resultName f.name :: f.parameters) := by
  obtain ⟨g, calls, _, _, hg, hwrites, -⟩ := verdict_eq_parallelizable h
  obtain ⟨hroot, hloop⟩ := FlowGraph.boundary?_ofProgram hg
  have hnames := NameMap.mem_names_of_contains (Option.isSome_iff_exists.2 hloop)
  refine ⟨assignsOnly_root hwrites hroot hnames, ?_⟩
  intro name hname hne
  obtain ⟨hbound, f, hf⟩ := FlowGraph.contains_of_called hg hname hne
  rw [← hroot] at hne
  exact ⟨f, hf, assignsOnly_procedure hwrites (NameMap.mem_names_of_contains hbound) hne hf⟩

/-- A loop whose called procedures call others and themselves. -/
def nestedLoop : Program :=
  ((Program.ofBody "i" [.call "outer" []]).withProcedure
    ⟨"outer", [], [.call "inner" [.int 1]]⟩).withProcedure
    ⟨"inner", ["x"], [.assign (.var "x") (.int 2), .call "outer" []]⟩

/-- The procedure `inner` is called through `outer`. -/
theorem called_inner : nestedLoop.Called (· ≠ loopName) "inner" := by
  have houter : nestedLoop.Called (· ≠ loopName) "outer" := .direct (by decide)
  exact .step (f := ⟨"outer", [], [.call "inner" [.int 1]]⟩) houter (by decide) (by decide)
    (by decide)

theorem assignsOnly_inner : verdict nestedLoop true 1000 = .ok .parallelizable ∧
    ∃ f, nestedLoop.procedures.find? "inner" = some f ∧
      AssignsOnly f.body ["$result_inner", "x"] := by
  have hpass : verdict nestedLoop true 1000 = .ok .parallelizable := by decide +kernel
  obtain ⟨f, hf, honly⟩ := (assignsOnly_of_called hpass).2 "inner" called_inner (by decide)
  cases hf
  exact ⟨hpass, _, rfl, honly⟩

/-- A loop that calls a procedure named as the loop body. -/
def shadowedLoop : Program :=
  (Program.ofBody "i" [.call "$loop" []]).withProcedure ⟨"$loop", [], [.assign (.var "s") (.int 1)]⟩

/-- A procedure that is named as the loop body may assign a variable from outside. -/
theorem shadowedLoop_escapes :
    Listing.parse "proc $loop() \x7b s = 1; \x7d loop i \x7b call $loop(); \x7d" =
        .ok shadowedLoop ∧
      verdict shadowedLoop true 1000 = .ok .parallelizable ∧
      shadowedLoop.Called (fun _ => True) "$loop" ∧
      ∃ f, shadowedLoop.procedures.find? "$loop" = some f ∧
        ¬ AssignsOnly f.body (resultName f.name :: f.parameters) := by
  refine ⟨by decide +kernel, by decide +kernel, .direct (by decide), _, rfl, fun h => ?_⟩
  exact absurd (h "s" 0 (.int 1) rfl .start) (by decide)

end ParLoop.Verify
