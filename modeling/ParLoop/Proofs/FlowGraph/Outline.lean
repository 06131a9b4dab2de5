import ParLoop.Proofs.FlowGraph.Body

/-!
# Outlines of bodies

The outline of a body says of each instruction which variable it sets, which label it is and where
control goes from it. Whether a body has a flow graph is a matter of its outline
(`exists_ofProcedure_iff`), and so is which positions control passes (`continues_congr`).
-/

namespace ParLoop

namespace Instr

/-- The label that an instruction is. -/
def label? : Instr → Option String
  | .label l => some l
  | _ => none

theorem label?_eq_some {i : Instr} {l : String} : i.label? = some l ↔ i = .label l := by
  cases i <;> simp [label?]

end Instr

/-- What an instruction means for control and for the values of variables. -/
structure Outline where
  defined : Option String
  label : Option String
  target : Option String
  fallsThrough : Bool

/-- The outline of an instruction. -/
def Instr.outline (i : Instr) : Outline := ⟨i.defined?, i.label?, i.jumpTarget?, i.fallsThrough⟩

/-- Two bodies agree, position by position, on what they set and where control goes. -/
def SameOutline (body body' : List Instr) : Prop :=
  body.map Instr.outline = body'.map Instr.outline

/-- Labels stand once, and every jump has its label. -/
def WellLabelled (body : List Instr) : Prop :=
  LabelsOnce body ∧ ∀ i ∈ body, ∀ l, i.jumpTarget? = some l → .label l ∈ body

namespace SameOutline

variable {body body' : List Instr}

theorem symm (h : SameOutline body body') : SameOutline body' body := Eq.symm h

theorem length_eq (h : SameOutline body body') : body.length = body'.length := by
  have := congrArg List.length h
  rwa [List.length_map, List.length_map] at this

theorem getElem? (h : SameOutline body body') {k : Nat} {i : Instr} (hi : body[k]? = some i) :
    ∃ j, body'[k]? = some j ∧ i.outline = j.outline := by
  have hk : (body'.map Instr.outline)[k]? = some i.outline := by
    rw [← h, List.getElem?_map, hi, Option.map_some]
  rw [List.getElem?_map] at hk
  obtain ⟨j, hj, heq⟩ := Option.map_eq_some_iff.1 hk
  exact ⟨j, hj, heq.symm⟩

theorem getElem?_label (h : SameOutline body body') {k : Nat} {l : String}
    (hl : body[k]? = some (.label l)) : body'[k]? = some (.label l) := by
  obtain ⟨j, hj, heq⟩ := h.getElem? hl
  have hlabel : some l = j.label? := congrArg Outline.label heq
  rw [hj, Instr.label?_eq_some.1 hlabel.symm]

theorem continues (h : SameOutline body body') {k k' : Nat} (hc : Continues body k k') :
    Continues body' k k' := by
  obtain ⟨i, hi, hstep⟩ := hc
  obtain ⟨j, hj, heq⟩ := h.getElem? hi
  have htarget : i.jumpTarget? = j.jumpTarget? := congrArg Outline.target heq
  have hfalls : i.fallsThrough = j.fallsThrough := congrArg Outline.fallsThrough heq
  refine ⟨j, hj, ?_⟩
  rw [← htarget, ← hfalls]
  exact hstep.imp_right fun ⟨l, hl, hk'⟩ => ⟨l, hl, h.getElem?_label hk'⟩

theorem wellLabelled (h : SameOutline body body') (hl : WellLabelled body) :
    WellLabelled body' := by
  obtain ⟨honce, htargets⟩ := hl
  refine ⟨fun k k' l hk hk' => ?_, fun j hj l hl => ?_⟩
  · exact honce k k' l (h.symm.getElem?_label hk) (h.symm.getElem?_label hk')
  · obtain ⟨k, hk⟩ := List.getElem?_of_mem hj
    obtain ⟨i, hi, heq⟩ := h.symm.getElem? hk
    have htarget : j.jumpTarget? = i.jumpTarget? := congrArg Outline.target heq
    rw [htarget] at hl
    obtain ⟨k', hk'⟩ := List.getElem?_of_mem (htargets i (List.mem_of_getElem? hi) l hl)
    exact List.mem_of_getElem? (h.getElem?_label hk')

end SameOutline

theorem continues_congr {body body' : List Instr} (h : SameOutline body body') {k k' : Nat} :
    Continues body k k' ↔ Continues body' k k' :=
  ⟨h.continues, h.symm.continues⟩

/-! ### Which bodies have a flow graph -/

namespace Build

variable {name : String}

/-- The instructions of a body can be drawn if no label stands twice. -/
theorem Draws.exists_foldlM {pre post : List Instr} {marks : Landmarks} {d : Draft}
    (h : Draws name pre marks d) (hlabels : LabelsOnce (pre ++ post)) :
    ∃ r, (post.zipIdx pre.length).foldlM (addInstr none name) marks d = .ok r := by
  induction post generalizing pre marks d with
  | nil => exact ⟨(marks, d), rfl⟩
  | cons i post ih =>
    have hnew : marks.repeated? i = none := by
      cases i with
      | label l =>
        rw [Landmarks.repeated?, if_neg]
        intro hsome
        -- The label would stand at an earlier position too.
        obtain ⟨v, hv⟩ := Option.isSome_iff_exists.1 hsome
        obtain ⟨k, hk, -⟩ := h.lookup_eq_some.1 hv
        have hlt : k < pre.length := (List.getElem?_eq_some_iff.1 hk).1
        have heq := hlabels k pre.length l (by rwa [List.getElem?_append_left hlt]) (by simp)
        omega
      | _ => rfl
    rw [List.zipIdx_cons, List.foldlM_cons, bind_eq, addInstr_eq, hnew]
    have hstep := h.drawn i hnew
    rw [show pre.length + 1 = (pre ++ [i]).length by simp]
    exact ih hstep (by simpa using hlabels)

/-- The jumps can be drawn if all their labels are known. -/
theorem exists_forM_addJump {marks : Landmarks} {jumps : List (Nat × String)}
    (h : ∀ j ∈ jumps, ∃ v, marks.labels.lookup j.2 = some v) (d : Draft) :
    ∃ r, (jumps.forM fun (node, l) => addJump name marks node l) d = .ok r := by
  induction jumps generalizing d with
  | nil => exact ⟨((), d), rfl⟩
  | cons j jumps ih =>
    obtain ⟨node, l⟩ := j
    obtain ⟨v, hv⟩ := h (node, l) (by simp)
    obtain ⟨r, hr⟩ := ih (fun j hj => h j (by simp [hj])) { d with graph := d.graph.addEdge node v }
    refine ⟨r, ?_⟩
    have hj : addJump name marks node l d =
        .ok ((), { d with graph := d.graph.addEdge node v }) := by
      simp only [addJump, hv]
      rfl
    show (addJump name marks node l >>= fun _ => jumps.forM _) d = .ok r
    rw [bind_eq, hj]
    exact hr

theorem exists_sequence (name : String) {body : List Instr} (h : WellLabelled body) :
    ∃ r, sequence name body (blank name) = .ok r := by
  have hlabels : LabelsOnce ([] ++ body) := h.1
  obtain ⟨⟨marks, d⟩, hr⟩ := (draws_blank name).exists_foldlM hlabels
  have hd : Draws name body marks d := (draws_blank name).foldlM hr
  have hjumps : ∀ j ∈ marks.jumps, ∃ v, marks.labels.lookup j.2 = some v := by
    rintro ⟨u, l⟩ hj
    obtain ⟨k, i, hi, hl, -⟩ := (hd.mem_jumps u l).1 hj
    obtain ⟨k', hk'⟩ := List.getElem?_of_mem (h.2 i (List.mem_of_getElem? hi) l hl)
    exact ⟨k' + 2, hd.lookup_eq_some.2 ⟨k', hk', rfl⟩⟩
  unfold sequence
  rw [bind_eq, show body.zipIdx.foldlM (addInstr none name) {} (blank name) = _ from hr]
  show ∃ r, (connect 1 >>= fun _ => marks.jumps.forM _) d = .ok r
  rw [bind_eq, connect_eq]
  exact exists_forM_addJump hjumps _

end Build

/-- **A procedure has a flow graph exactly if its labels stand once and no jump misses its
label.** -/
theorem exists_ofProcedure_iff {f : Procedure} :
    (∃ g, FlowGraph.ofProcedure f = .ok g) ↔ WellLabelled f.body := by
  constructor
  · rintro ⟨g, hg⟩
    have h := FlowGraph.ofProcedure_isGraphOf hg
    exact ⟨h.labelsOnce, h.target_mem⟩
  · intro h
    obtain ⟨r, hr⟩ := Build.exists_sequence f.name h
    refine ⟨r.2.graph.settle, ?_⟩
    unfold FlowGraph.ofProcedure
    rw [Build.complete_eq, hr]
    rfl

end ParLoop
