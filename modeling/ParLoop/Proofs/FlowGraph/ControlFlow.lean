import ParLoop.Proofs.FlowGraph.Built
import ParLoop.Proofs.FlowGraph.Outline

/-!
# The graph of a procedure, and when there is none

Two things can be wrong with the labels of a body: a label stands twice, or a jump misses its label.
`ofProcedure_controlFlow` says that the construction reports the first if it is there and else the
second, and that otherwise it gives a settled graph: one node for each position, one edge for each
step of control, and neighbours listed once.
-/

namespace ParLoop

/-- A label stands at two positions of a body. -/
def StandsTwice (body : List Instr) (l : String) : Prop :=
  ∃ k k' : Nat, k < k' ∧ body[k]? = some (.label l) ∧ body[k']? = some (.label l)

/-- A jump of a body, conditional or not, goes to a label that does not stand in it. -/
def MissesLabel (body : List Instr) (l : String) : Prop :=
  .label l ∉ body ∧ ∃ i ∈ body, i.jumpTarget? = some l

theorem not_labelsOnce {body : List Instr} {l : String} (h : StandsTwice body l) :
    ¬ LabelsOnce body := by
  obtain ⟨k, k', hlt, hk, hk'⟩ := h
  intro honce
  have := honce k k' l hk hk'
  omega

theorem labelsOnce_of_not {body : List Instr} (h : ∀ l, ¬ StandsTwice body l) :
    LabelsOnce body := by
  intro k k' l hk hk'
  rcases Nat.lt_trichotomy k k' with hlt | heq | hlt
  · exact absurd ⟨k, k', hlt, hk, hk'⟩ (h l)
  · exact heq
  · exact absurd ⟨k', k, hlt, hk', hk⟩ (h l)

theorem wellLabelled_iff {body : List Instr} :
    WellLabelled body ↔ (∀ l, ¬ StandsTwice body l) ∧ ∀ l, ¬ MissesLabel body l := by
  constructor
  · rintro ⟨honce, htargets⟩
    refine ⟨fun l htwice => not_labelsOnce htwice honce, ?_⟩
    rintro l ⟨hmissing, i, hi, hl⟩
    exact hmissing (htargets i hi l hl)
  · rintro ⟨htwice, hmisses⟩
    refine ⟨labelsOnce_of_not htwice, fun i hi l hl => ?_⟩
    by_contra hmissing
    exact hmisses l ⟨hmissing, i, hi, hl⟩

namespace Build

variable {name : String}

/-! ### What goes wrong -/

theorem Draws.standsTwice {pre : List Instr} {marks : Landmarks} {d : Draft}
    (h : Draws name pre marks d) {i : Instr} {l : String} (hl : marks.repeated? i = some l)
    (post : List Instr) : StandsTwice (pre ++ i :: post) l := by
  cases i with
  | label l' =>
    simp only [Landmarks.repeated?] at hl
    split at hl
    case isFalse => cases hl
    case isTrue hsome =>
      cases hl
      obtain ⟨v, hv⟩ := Option.isSome_iff_exists.1 hsome
      obtain ⟨k, hk, -⟩ := h.lookup_eq_some.1 hv
      have hlt : k < pre.length := (List.getElem?_eq_some_iff.1 hk).1
      refine ⟨k, pre.length, hlt, ?_, by simp⟩
      rw [List.getElem?_append_left hlt, hk]
  | _ => cases hl

/-- The instructions of a body can only fail to be drawn for a label that stands twice. -/
theorem Draws.foldlM_eq_error {pre post : List Instr} {marks : Landmarks} {d : Draft}
    {e : AnalysisError} (h : Draws name pre marks d)
    (hrun : (post.zipIdx pre.length).foldlM (addInstr none name) marks d = .error e) :
    ∃ l, e = .duplicateLabel l name ∧ StandsTwice (pre ++ post) l := by
  induction post generalizing pre marks d with
  | nil => cases hrun
  | cons i post ih =>
    rw [List.zipIdx_cons, List.foldlM_cons] at hrun
    rcases Outcome.stateT_bind_eq_error hrun with hi | ⟨m, d', hi, hrest⟩
    · rw [addInstr_eq] at hi
      split at hi
      case h_1 l hl =>
        cases hi
        exact ⟨l, rfl, h.standsTwice hl post⟩
      case h_2 => cases hi
    · rw [addInstr_eq] at hi
      split at hi
      case h_1 => cases hi
      case h_2 hnew =>
        cases hi
        rw [show pre.length + 1 = (pre ++ [i]).length by simp] at hrest
        simpa using ih (h.drawn i hnew) hrest

/-- The jumps can only fail for a label that is not known. -/
theorem forM_addJump_eq_error {marks : Landmarks} {jumps : List (Nat × String)} {d : Draft}
    {e : AnalysisError}
    (h : (jumps.forM fun (node, l) => addJump name marks node l) d = .error e) :
    ∃ u l, (u, l) ∈ jumps ∧ marks.labels.lookup l = none ∧ e = .unknownLabel l name := by
  induction jumps generalizing d with
  | nil => cases h
  | cons j jumps ih =>
    obtain ⟨u, l⟩ := j
    rcases Outcome.stateT_bind_eq_error (x := addJump name marks u l)
      (f := fun _ => jumps.forM _) h with hj | ⟨⟨⟩, d', -, hrest⟩
    · refine ⟨u, l, by simp, ?_⟩
      cases hl : marks.labels.lookup l with
      | none =>
        simp only [addJump, hl] at hj
        cases hj
        exact ⟨rfl, rfl⟩
      | some target =>
        simp only [addJump, hl] at hj
        cases hj
    · obtain ⟨u', l', hmem, hl'⟩ := ih hrest
      exact ⟨u', l', by simp [hmem], hl'⟩

/-- A label that stands twice is reported before a jump that misses its label. -/
theorem sequence_eq_error {body : List Instr} {e : AnalysisError}
    (h : sequence name body (blank name) = .error e) :
    (∃ l, e = .duplicateLabel l name ∧ StandsTwice body l) ∨
      LabelsOnce body ∧ ∃ l, e = .unknownLabel l name ∧ MissesLabel body l := by
  rcases Outcome.stateT_bind_eq_error h with hfold | ⟨marks, d, hfold, hrest⟩
  · exact Or.inl ((draws_blank name).foldlM_eq_error hfold)
  · right
    have hd : Draws name body marks d := (draws_blank name).foldlM hfold
    refine ⟨hd.labelsOnce, ?_⟩
    rcases Outcome.stateT_bind_eq_error hrest with hconnect | ⟨⟨⟩, d', -, hjumps⟩
    · rw [connect_eq] at hconnect
      cases hconnect
    · obtain ⟨u, l, hmem, hnone, rfl⟩ := forM_addJump_eq_error hjumps
      obtain ⟨k, i, hi, hl, -⟩ := (hd.mem_jumps u l).1 hmem
      refine ⟨l, rfl, fun hlabel => ?_, i, List.mem_of_getElem? hi, hl⟩
      obtain ⟨k', hk'⟩ := List.getElem?_of_mem hlabel
      rw [hd.lookup_eq_some.2 ⟨k', hk', rfl⟩] at hnone
      cases hnone

/-! ### The steps of the construction -/

theorem built_linked {g : FlowGraph} (h : g.Built) (cursor : Option Nat) (node : Nat) :
    (linked cursor node g).Built := by
  cases cursor with
  | none => exact h
  | some last => exact h.grows (.addEdge trivial)

theorem built_addEdges {g : FlowGraph} (h : g.Built) (es : List Edge) : (g.addEdges es).Built := by
  induction es generalizing g with
  | nil => exact h
  | cons e es ih => exact ih (h.grows (.addEdge trivial))

theorem built_foldlM {l : List (Instr × Nat)} {marks marks' : Landmarks} {d d' : Draft}
    (h : d.graph.Built) (hrun : l.foldlM (addInstr none name) marks d = .ok (marks', d')) :
    d'.graph.Built := by
  induction l generalizing marks d with
  | nil =>
    cases hrun
    exact h
  | cons p l ih =>
    obtain ⟨i, index⟩ := p
    rw [List.foldlM_cons] at hrun
    obtain ⟨m, e, hi, hrest⟩ := Outcome.stateT_bind_eq_ok hrun
    rw [addInstr_eq] at hi
    split at hi
    case h_1 => cases hi
    case h_2 =>
      cases hi
      exact ih (built_linked (h.grows (.placeInstr _ name index i)) _ _) hrest

theorem built_sequence {body : List Instr} {r : Unit × Draft}
    (h : sequence name body (blank name) = .ok r) : r.2.graph.Built := by
  obtain ⟨marks, d, hfold, hrest⟩ := Outcome.stateT_bind_eq_ok h
  obtain ⟨⟨⟩, e, hconnect, hjumps⟩ := Outcome.stateT_bind_eq_ok hrest
  rw [connect_eq] at hconnect
  cases hconnect
  obtain ⟨es, hr, -⟩ := forM_addJump_eq_ok hjumps
  rw [hr]
  exact built_addEdges (built_linked (built_foldlM (FlowGraph.built_ofRoot name) hfold) _ _) es

end Build

namespace FlowGraph

open Build

variable {f : Procedure} {g : FlowGraph}

theorem ofProcedure_eq (f : Procedure) :
    ofProcedure f = (sequence f.name f.body (blank f.name)).map fun r => r.2.graph.settle := by
  unfold ofProcedure
  rw [complete_eq]
  cases sequence f.name f.body (blank f.name) <;> rfl

/-- What is wrong with the labels is what is reported. -/
theorem ofProcedure_cases (f : Procedure) :
    (∃ l, ofProcedure f = .error (.duplicateLabel l f.name) ∧ StandsTwice f.body l) ∨
    (LabelsOnce f.body ∧
      ∃ l, ofProcedure f = .error (.unknownLabel l f.name) ∧ MissesLabel f.body l) ∨
    WellLabelled f.body ∧ ∃ g, ofProcedure f = .ok g := by
  cases hr : sequence f.name f.body (blank f.name) with
  | ok r =>
    have hg : ofProcedure f = .ok r.2.graph.settle := by
      rw [ofProcedure_eq, hr]
      rfl
    exact Or.inr (Or.inr ⟨exists_ofProcedure_iff.1 ⟨_, hg⟩, _, hg⟩)
  | error e =>
    have he : ofProcedure f = .error e := by
      rw [ofProcedure_eq, hr]
      rfl
    rcases sequence_eq_error hr with ⟨l, rfl, htwice⟩ | ⟨honce, l, rfl, hmisses⟩
    · exact Or.inl ⟨l, he, htwice⟩
    · exact Or.inr (Or.inl ⟨honce, l, he, hmisses⟩)

/-- The graph of a procedure was built step by step, and then settled. -/
theorem exists_built (h : ofProcedure f = .ok g) :
    g.Built ∧ g.settled = true ∧
      g.positions = (List.range f.body.length).map fun k => ((f.name, k), k + 2) := by
  rw [ofProcedure_eq] at h
  cases hr : sequence f.name f.body (blank f.name) with
  | error e =>
    rw [hr] at h
    cases h
  | ok r =>
    rw [hr] at h
    cases h
    obtain ⟨marks, d, hd, -, -, -, -, hpositions, -⟩ := mem_edges_sequence hr
    refine ⟨(built_sequence hr).grows (.settle _), rfl, ?_⟩
    rw [positions_settle, hpositions, hd.positions_eq]

/-- **The graph of a procedure is its control flow.** A label that stands twice is reported, and if
there is none, a jump that misses its label; otherwise the graph is settled, its nodes are the
positions of the body between the start and the stop, its edges are the steps of control, and every
edge and every neighbour is listed once. -/
theorem ofProcedure_controlFlow (f : Procedure) :
    ((∃ l, ofProcedure f = .error (.duplicateLabel l f.name)) ↔ ∃ l, StandsTwice f.body l) ∧
    ((∃ l, ofProcedure f = .error (.unknownLabel l f.name)) ↔
      (∀ l, ¬ StandsTwice f.body l) ∧ ∃ l, MissesLabel f.body l) ∧
    ((∃ g, ofProcedure f = .ok g ∧ g.settled = true ∧ g.IsGraphOf f.name f.body ∧
        g.positions = (List.range f.body.length).map (fun k => ((f.name, k), k + 2)) ∧
        g.edges.toList.Nodup ∧ ∀ u, (g.successors u).Nodup ∧ (g.predecessors u).Nodup) ↔
      (∀ l, ¬ StandsTwice f.body l) ∧ ∀ l, ¬ MissesLabel f.body l) := by
  rcases ofProcedure_cases f with ⟨l, hr, htwice⟩ | ⟨honce, l, hr, hmisses⟩ | ⟨hwell, g, hr⟩
  · have hnot : ¬ ∀ l, ¬ StandsTwice f.body l := fun h => h l htwice
    simp only [hr, hnot, false_and, iff_false]
    refine ⟨⟨fun _ => ⟨l, htwice⟩, fun _ => ⟨l, rfl⟩⟩, ?_, ?_⟩
    · rintro ⟨l', h⟩
      cases h
    · rintro ⟨g, h, -⟩
      cases h
  · have hfree : ∀ l, ¬ StandsTwice f.body l := fun l htwice => not_labelsOnce htwice honce
    simp only [hr]
    refine ⟨⟨?_, ?_⟩, ⟨fun _ => ⟨hfree, l, hmisses⟩, fun _ => ⟨l, rfl⟩⟩, ?_, ?_⟩
    · rintro ⟨l', h⟩
      cases h
    · rintro ⟨l', htwice⟩
      exact absurd htwice (hfree l')
    · rintro ⟨g, h, -⟩
      cases h
    · rintro ⟨-, h⟩
      exact absurd hmisses (h l)
  · obtain ⟨hfree, hnone⟩ := wellLabelled_iff.1 hwell
    have hgraph := ofProcedure_isGraphOf hr
    obtain ⟨hbuilt, hsettled, hpositions⟩ := exists_built hr
    simp only [hr]
    refine ⟨⟨?_, ?_⟩, ⟨?_, ?_⟩, fun _ => ⟨hfree, hnone⟩, fun _ => ?_⟩
    · rintro ⟨l', h⟩
      cases h
    · rintro ⟨l', htwice⟩
      exact absurd htwice (hfree l')
    · rintro ⟨l', h⟩
      cases h
    · rintro ⟨-, l', hmisses⟩
      exact absurd hmisses (hnone l')
    · exact ⟨g, rfl, hsettled, hgraph, hpositions, hbuilt.sound.nodup_edges,
        hbuilt.sound.nodup_neighbours hsettled fun e he =>
          hgraph.coherent.lt_size e.source e.target he⟩

end FlowGraph

end ParLoop
