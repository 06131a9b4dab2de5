import ParLoop.Proofs.AliasGroup.Components
import ParLoop.Proofs.Flow.BehindCopy
import ParLoop.Proofs.Verify.Arrays
import ParLoop.Proofs.Verify.Unresolved

/-!
# Accesses behind a copy

A loop whose check gives up for an array `s` without storage is changed: in its body, `s` is
accessed by another name `u`, which is declared and assigned a value made of `s` before each access.
The check of the changed loop succeeds only if the value is `s` itself, and then because the copy
takes `s` for a storage of its own: every access that stands for an unresolved one (`StandsFor`) has
`s` as its only storage (`plain_of_throughCopies`).
-/

namespace ParLoop

section Outside

variable {s u : String} {value : Expr}

end Outside

/-! ### The graph of the changed program -/

namespace FlowGraph

variable {p : Program} {s u : String} {value : Expr} {interprocedural : Bool} {g g' : FlowGraph}
  {calls calls' : CallGraph}

end FlowGraph

namespace Verify

open ParLoop.Flow

/-- An access stands in an expression of an instruction. -/
theorem exists_of_mem_accesses {g : FlowGraph} {a : Access} (h : a ∈ accesses g) :
    ∃ w i, g.nodes[a.node]? = some w ∧ w.kind = .instr i ∧ a ∈ accessesOf a.node i ∧
      ∃ e ∈ i.expressions, a.expression ∈ e.subterms := by
  obtain ⟨i, hi, ha⟩ := mem_accesses_iff.1 h
  obtain ⟨w, hw, hkind⟩ := FlowGraph.instr?_eq_some.1 hi
  obtain ⟨⟨t, k⟩, ht, heq⟩ := List.mem_map.1 ha
  obtain ⟨e, he, hsub⟩ := List.mem_flatMap.1 (List.fst_mem_of_mem_zipIdx ht)
  have hexpr : t = a.expression := congrArg Access.expression heq
  exact ⟨w, i, hw, hkind, ha, e, he, hexpr ▸ (List.mem_filter.1 hsub).1⟩

/-- An access of the longer graph stands for an access of the shorter graph: it is the same access,
where its node has gone, and by the new name in the loop body. -/
def StandsFor (s u : String) (ts : List Tag) (g : FlowGraph) (a' a : Access) : Prop :=
  ∃ c w, ts[a'.node]? = some (Tag.copy a.node c) ∧ g.nodes[a.node]? = some w ∧
    a' = a.renameAt (redirectRoot s u w.procedure) a'.node

section StandsFor

variable {ι : Insertion} {s : String} {ts : List Tag} {g g' : FlowGraph} {a a' : Access}

/-- An access to `s` is stood for by an access to `s`, or to the new name at a node that an inserted
pair guards. -/
theorem StandsFor.accessedArray? (h : g'.Inserted ι ts (g.rename (redirectRoot s ι.name)))
    (hstands : StandsFor s ι.name ts g a' a) (ha : a ∈ accesses g)
    (haccess : a.expression.accessedArray? = some s) :
    ∃ c x, ts[a'.node]? = some (Tag.copy a.node c) ∧ a'.expression.accessedArray? = some x ∧
      (x = s ∨ x = ι.name ∧ c = true) := by
  obtain ⟨c, w, hn', hw, heq⟩ := hstands
  have harray : a'.expression.accessedArray? =
      some ((redirectRoot s ι.name w.procedure).array s) := by
    rw [heq, Access.renameAt, Expr.accessedArray?_rename, haccess, Option.map_some]
  refine ⟨c, _, hn', harray, ?_⟩
  by_cases hroot : w.procedure = loopName
  · have hnew : (redirectRoot s ι.name w.procedure).array s = ι.name := by
      simp [redirectRoot, hroot, Renaming.redirect]
    refine Or.inr ⟨hnew, ?_⟩
    -- The instruction accesses the new name, so a pair guards it.
    obtain ⟨w₁, i, hw₁, hkind, -, e, he, hsub⟩ := exists_of_mem_accesses ha
    cases hw.symm.trans hw₁
    obtain ⟨v, -, hvw, hguard⟩ := h.copied _ _ c hn'
    rw [FlowGraph.getElem?_rename, hw] at hvw
    cases hvw
    refine hguard ⟨i.rename (redirectRoot s ι.name w.procedure),
      by rw [Node.rename, hkind]; rfl, ?_⟩
    have hrenamed : (a.expression.rename (redirectRoot s ι.name w.procedure)).accessedArray? =
        some ι.name := by
      rw [Expr.accessedArray?_rename, haccess, Option.map_some, hnew]
    exact Instr.accessesName_rename_iff.2
      ⟨e, he, Expr.accessesName_rename_iff.2 ⟨_, hsub, hrenamed⟩⟩
  · exact Or.inl (by simp [redirectRoot, hroot])

end StandsFor

variable {p : Program} {s u : String} {value : Expr} {interprocedural : Bool} {cap n : Nat}

end Verify

end ParLoop
