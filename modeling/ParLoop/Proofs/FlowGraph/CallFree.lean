import ParLoop.Proofs.Expr.Subterms
import ParLoop.Proofs.FlowGraph.Body

/-!
# Bodies without calls

Nothing is taken out of an instruction that calls nothing, so the graph of a body without calls is
the same whether calls are joined to their callees or not (`ofProgram_isGraphOf`).
-/

namespace ParLoop

theorem Expr.hasCall_call (f : String) (es : List Expr) : (Expr.call f es).hasCall = true := by
  simp [hasCall, subterms, calledProcedure?]

theorem Instr.hasCall_of_mem_expressions {i : Instr} {e : Expr} (h : i.hasCall = false)
    (he : e ∈ i.expressions) : e.hasCall = false := by
  cases i with
  | call f es => simp [hasCall] at h
  | assign t v =>
    simp only [hasCall, List.any_eq_false] at h
    simpa using h e he
  | branch c l =>
    simp only [hasCall, List.any_eq_false] at h
    simpa using h e he
  | declare x => simp [expressions] at he
  | label l => simp [expressions] at he
  | jump l => simp [expressions] at he

namespace Build

variable (linking : Linking) (caller : String)

theorem hoistList_eq_pure {es : List Expr}
    (h : ∀ e ∈ es, hoist linking caller e = pure e) : hoistList linking caller es = pure es := by
  induction es with
  | nil => rfl
  | cons e es ih =>
    rw [hoistList, h e (by simp), ih fun t ht => h t (by simp [ht])]
    simp

/-- Nothing is taken out of an expression that calls nothing. -/
theorem hoist_eq_pure {e : Expr} (h : e.hasCall = false) : hoist linking caller e = pure e := by
  induction e with
  | var x => rfl
  | int n => rfl
  | double d => rfl
  | access a is ih =>
    have his := hoistList_eq_pure linking caller fun t ht =>
      ih t ht (Expr.hasCall_of_mem_children h ht)
    simp [hoist, his]
  | neg e ih =>
    rw [hoist, ih (Expr.hasCall_of_mem_children h (by simp))]
    simp
  | binary op l r ihl ihr =>
    rw [hoist, ihl (Expr.hasCall_of_mem_children h (by simp)),
      ihr (Expr.hasCall_of_mem_children h (by simp))]
    simp
  | paren e ih =>
    rw [hoist, ih (Expr.hasCall_of_mem_children h (by simp))]
    simp
  | cond c t f ihc iht ihf =>
    rw [hoist, ihc (Expr.hasCall_of_mem_children h (by simp)),
      iht (Expr.hasCall_of_mem_children h (by simp)),
      ihf (Expr.hasCall_of_mem_children h (by simp))]
    simp
  | call f es => rw [Expr.hasCall_call] at h; cases h

theorem hoistInstr_eq_pure {i : Instr} (h : i.hasCall = false) (index : Nat) :
    hoistInstr linking caller index i = pure (some i) := by
  have he : ∀ e ∈ i.expressions, hoist linking caller e = pure e :=
    fun e he => hoist_eq_pure linking caller (Instr.hasCall_of_mem_expressions h he)
  cases i with
  | call f es => simp [Instr.hasCall] at h
  | branch c l =>
    rw [hoistInstr, he c (by simp [Instr.expressions])]
    simp
  | declare x => rfl
  | label l => rfl
  | jump l => rfl
  | assign t v =>
    cases t <;> simp only [Instr.expressions, List.mem_cons, List.not_mem_nil, or_false,
      forall_eq_or_imp, forall_eq] at he <;> simp [hoistInstr, he]

theorem addInstr_of_callFree {i : Instr} (h : i.hasCall = false) (marks : Landmarks) (index : Nat) :
    addInstr (some linking) caller marks (i, index) = addInstr none caller marks (i, index) := by
  simp only [addInstr, hoistInstr_eq_pure linking caller h]

theorem foldlM_addInstr_of_callFree {instrs : List (Instr × Nat)}
    (h : ∀ i ∈ instrs, i.1.hasCall = false) (marks : Landmarks) :
    instrs.foldlM (addInstr (some linking) caller) marks =
      instrs.foldlM (addInstr none caller) marks := by
  induction instrs generalizing marks with
  | nil => rfl
  | cons i instrs ih =>
    obtain ⟨i, index⟩ := i
    rw [List.foldlM_cons, List.foldlM_cons,
      addInstr_of_callFree linking caller (h (i, index) (by simp))]
    exact bind_congr fun marks => ih (fun j hj => h j (by simp [hj])) marks

theorem complete_of_callFree {f : Procedure} (h : ∀ i ∈ f.body, i.hasCall = false) :
    complete (some linking) f = complete none f := by
  have hbody : ∀ i ∈ f.body.zipIdx, i.1.hasCall = false :=
    fun i hi => h i.1 (List.fst_mem_of_mem_zipIdx hi)
  simp only [complete, addBody, foldlM_addInstr_of_callFree linking f.name hbody]

end Build

/-- The graph of a loop whose body calls nothing. -/
theorem FlowGraph.ofProgram_isGraphOf {p : Program} {interprocedural : Bool} {g : FlowGraph}
    {calls : CallGraph} (hcalls : ∀ i ∈ p.body, i.hasCall = false)
    (h : FlowGraph.ofProgram p interprocedural = .ok (g, calls)) :
    g.IsGraphOf loopName p.body := by
  unfold FlowGraph.ofProgram at h
  cases interprocedural with
  | true =>
    rw [if_pos rfl, Build.complete_of_callFree _ hcalls] at h
    exact Build.complete_isGraphOf h
  | false => exact Build.complete_isGraphOf h

end ParLoop
