import ParLoop.Proofs.Flow.OneToOne
import ParLoop.Proofs.FlowGraph.CallFree
import ParLoop.Proofs.NameMap

/-!
# Programs under one-to-one names

In `p.replace σ` the names of a program are replaced everywhere: in its bodies and parameters, in
its bounds and in its table of symbols. Its graph is the graph of `p` with the names replaced
(`FlowGraph.ofProgram_replace`). Where calls are joined to their callees, this needs the names that
serve calls to stay.
-/

namespace ParLoop

variable {σ : String → String}

/-- The symbol with another name. -/
def Symbol.replace (σ : String → String) (s : Symbol) : Symbol := { s with name := σ s.name }

namespace Program

/-- The program with names replaced everywhere. Labels and procedures keep theirs. -/
def replace (σ : String → String) (p : Program) : Program where
  counter := σ p.counter
  lower := p.lower.map (Expr.rename ⟨σ, σ⟩)
  upper := p.upper.map (Expr.rename ⟨σ, σ⟩)
  body := p.body.map (Instr.rename ⟨σ, σ⟩)
  procedures := p.procedures.mapValues fun _ f => f.rename ⟨σ, σ⟩
  symbols := p.symbols.mapEntries σ (Symbol.replace σ)

/-- Whether the loop body makes calls that are joined to their callees. -/
def joinsCalls (p : Program) (interprocedural : Bool) : Bool :=
  interprocedural && p.body.any Instr.hasCall

theorem joinsCalls_replace (σ : String → String) (p : Program) (interprocedural : Bool) :
    (p.replace σ).joinsCalls interprocedural = p.joinsCalls interprocedural := by
  unfold joinsCalls replace
  rw [List.any_map]
  exact congrArg _ (congrArg (List.any _) (funext fun i => Instr.hasCall_rename _ i))

end Program

namespace FlowGraph

variable {g : FlowGraph} {calls : CallGraph} {p : Program} {interprocedural : Bool}

theorem IsGraphOf.not_joinsCalls {name : String} {body : List Instr}
    (hg : g.IsGraphOf name body) : ¬g.JoinsCalls := by
  rintro ⟨n, hn, hcrosses⟩
  obtain ⟨u, hu⟩ := Array.mem_iff_getElem?.1 hn
  rw [hg.crosses_eq_false hu] at hcrosses
  cases hcrosses

/-- Calls that are not made are not joined to anything. -/
theorem ofProgram_eq_joinsCalls (p : Program) (interprocedural : Bool) :
    ofProgram p interprocedural = ofProgram p (p.joinsCalls interprocedural) := by
  cases interprocedural with
  | false => rfl
  | true =>
    cases hcalls : p.body.any Instr.hasCall with
    | true => rw [Program.joinsCalls, hcalls]; rfl
    | false =>
      rw [Program.joinsCalls, hcalls]
      exact Build.complete_of_callFree _ fun i hi => by simpa using List.any_eq_false.1 hcalls i hi

theorem isGraphOf_of_joinsCalls (h : ofProgram p interprocedural = .ok (g, calls))
    (hjoins : p.joinsCalls interprocedural = false) : g.IsGraphOf loopName p.body := by
  rw [ofProgram_eq_joinsCalls, hjoins] at h
  exact Build.complete_isGraphOf h

theorem joinsCalls_of_ofProgram (h : ofProgram p interprocedural = .ok (g, calls))
    (hjoins : g.JoinsCalls) : p.joinsCalls interprocedural = true := by
  by_contra hnot
  exact (isGraphOf_of_joinsCalls h (by simpa using hnot)).not_joinsCalls hjoins

/-- **The graph under one-to-one names.** -/
theorem ofProgram_replace (p : Program) (interprocedural : Bool)
    (hcalls : p.joinsCalls interprocedural = true → KeepsCallNames σ) :
    ofProgram (p.replace σ) interprocedural =
      (ofProgram p interprocedural).map fun q => (q.1.replace σ, q.2) := by
  rw [ofProgram_eq_joinsCalls, ofProgram_eq_joinsCalls p, Program.joinsCalls_replace]
  refine ofProgram_rename _ (fun h _ => (hcalls h).keepsCalls) ⟨fun x => ?_, fun x f _ hf => ?_⟩
    ?_ rfl
  · simp [NameMap.contains, Program.replace]
  · simp [Program.replace, hf]
  · simp [NameMap.size, Program.replace, NameMap.mapValues]

end FlowGraph

end ParLoop
