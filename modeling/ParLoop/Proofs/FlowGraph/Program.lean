import ParLoop.Proofs.FlowGraph.Rename
import ParLoop.Proofs.FlowGraph.Stitched

/-!
# The graph of a program

The graph of a program is rooted at the loop body and coherent, whether or not it goes through the
bodies of called procedures. A name that a program does not mention is at no node of its graph,
except for the names that carry values across calls.
-/

namespace ParLoop

/-- Whether a procedure mentions a name, as a variable or as an accessed array. -/
def Procedure.mentions (x : String) (f : Procedure) : Bool :=
  f.parameters.contains x || f.body.any (·.mentions x)

/-- Whether a program mentions a name, as a variable, as an accessed array or as a symbol. -/
def Program.mentions (p : Program) (x : String) : Bool :=
  p.counter == x || p.lower.any (·.reads x) || p.upper.any (·.reads x) ||
    p.body.any (·.mentions x) || p.procedures.values.any (·.mentions x) || p.symbols.contains x

/-- Whether a node mentions a name, as a variable or as an accessed array. -/
def Node.mentions (x : String) (v : Node) : Bool :=
  match v.kind with
  | .instr i => i.mentions x
  | .invocation _ es => es.any (·.reads x)
  | _ => false

namespace FlowGraph

variable {p : Program} {interprocedural : Bool} {g : FlowGraph} {calls : CallGraph}

/-- The graph of a program is rooted at the loop body. -/
theorem boundary?_ofProgram (h : ofProgram p interprocedural = .ok (g, calls)) :
    g.root = loopName ∧ ∃ b, g.boundary? loopName = some b := by
  cases interprocedural with
  | true =>
    obtain ⟨d, hd, rfl, -⟩ := exists_finished h
    rw [root_settle, boundary?, boundaries_settle]
    exact ⟨hd.root_eq.1, hd.root_bounded⟩
  | false =>
    have hg := Build.complete_isGraphOf h
    refine ⟨hg.root_eq, ⟨0, 1⟩, ?_⟩
    rw [boundary?, hg.boundaries_eq]
    exact Build.find?_insert_self loopName ⟨0, 1⟩

/-- **The graph of a program is coherent.** -/
theorem coherent_ofProgram (h : ofProgram p interprocedural = .ok (g, calls)) : g.Coherent := by
  cases interprocedural with
  | false => exact (Build.complete_isGraphOf h).coherent
  | true =>
    obtain ⟨d, hd, rfl, -⟩ := exists_finished h
    have hbounds : ∀ x b, d.graph.boundary? x = some b →
        b.start < d.graph.size ∧ b.stop < d.graph.size := fun x b hb => by
      obtain ⟨-, hstart, hstop⟩ := hd.valid.boundary x b hb
      exact ⟨lt_size_of_getElem? hstart, lt_size_of_getElem? hstop⟩
    refine coherent_settle (fun a b hab => ?_) hbounds ?_
    · rcases hd.valid.edge _ hab with hinner | ⟨s, hs, bd, hbd, he⟩
      · obtain ⟨v, hv, -⟩ := hinner.source
        obtain ⟨w, hw, -⟩ := hinner.target
        exact ⟨lt_size_of_getElem? hv, lt_size_of_getElem? hw⟩
      · obtain ⟨hstart, hstop⟩ := hbounds _ bd hbd
        obtain ⟨⟨es, hnode⟩, henter, hleave, -⟩ := hd.valid.site s hs
        have hnode := lt_size_of_getElem? hnode
        have henter := lt_size_of_getElem? henter
        have hleave := lt_size_of_getElem? hleave
        simp only [CallSite.edges, List.mem_cons, Edge.mk.injEq, List.not_mem_nil, or_false] at he
        rcases he with ⟨rfl, rfl⟩ | ⟨rfl, rfl⟩ | ⟨rfl, rfl⟩ | ⟨rfl, rfl⟩ <;>
          exact ⟨by assumption, by assumption⟩
    · obtain ⟨b, hb⟩ := hd.root_bounded
      have hroot : d.graph.rootBoundary = b := by
        rw [rootBoundary, show d.graph.root = loopName from hd.root_eq.1, hb]
        rfl
      rw [hroot]
      exact hbounds _ b hb

end FlowGraph

end ParLoop
