import ParLoop.FlowGraph.Build
import ParLoop.Proofs.FlowGraph.Neighbours
import ParLoop.Proofs.Outcome

/-!
# The flow graph of a body is its control flow

`Continues body k k'` says that control can go on from position `k` of a body to position `k'`; the
position behind the last instruction is the way out. `ofProcedure_isGraphOf` says that the graph of
a procedure holds exactly these steps: the instruction at position `k` is node `k + 2`, the start is
node 0 and the stop is node 1.

The construction is followed instruction by instruction: `Build.Draws` describes the draft after
some instructions of a body.
-/

namespace ParLoop

/-! ### Control flow in a body -/

namespace Instr

/-- Whether control may go on from an instruction to the next one. -/
def fallsThrough : Instr → Bool
  | .jump _ => false
  | _ => true

/-- The label to which control may go from an instruction. -/
def jumpTarget? : Instr → Option String
  | .jump l | .branch _ l => some l
  | _ => none

end Instr

/-- Control may go on from a position of a body to another one. -/
def Continues (body : List Instr) (k k' : Nat) : Prop :=
  ∃ i, body[k]? = some i ∧ (i.fallsThrough = true ∧ k' = k + 1 ∨
    ∃ l, i.jumpTarget? = some l ∧ body[k']? = some (.label l))

/-- The node of a position in a body of a given length; the stop stands behind the last one. -/
def nodeOf (length k : Nat) : Nat := if k < length then k + 2 else 1

theorem nodeOf_of_lt {length k : Nat} (h : k < length) : nodeOf length k = k + 2 := if_pos h

/-- The nodes of the graph of a body. -/
def nodesOf (name : String) (body : List Instr) : List Node :=
  ⟨name, .start⟩ :: ⟨name, .stop⟩ :: body.map fun i => ⟨name, .instr i⟩

theorem length_nodesOf (name : String) (body : List Instr) :
    (nodesOf name body).length = body.length + 2 := by
  simp [nodesOf]

theorem nodesOf_append (name : String) (pre : List Instr) (i : Instr) :
    nodesOf name (pre ++ [i]) = nodesOf name pre ++ [⟨name, .instr i⟩] := by
  simp [nodesOf]

/-- No label stands at two positions. -/
def LabelsOnce (body : List Instr) : Prop :=
  ∀ (k k' : Nat) (l : String), body[k]? = some (.label l) → body[k']? = some (.label l) → k = k'

/-- A graph is the graph of a body: its nodes are those of the body, its edges the steps of control
between them. -/
structure FlowGraph.IsGraphOf (g : FlowGraph) (name : String) (body : List Instr) : Prop where
  root_eq : g.root = name
  nodes_eq : g.nodes.toList = nodesOf name body
  boundaries_eq : g.boundaries = (∅ : NameMap Boundary).insert name ⟨0, 1⟩
  position_eq : ∀ k < body.length, g.position? name k = some (k + 2)
  mem_edges : ∀ u v, ⟨u, v⟩ ∈ g.edges ↔ u = 0 ∧ v = nodeOf body.length 0 ∨
    ∃ k k', Continues body k k' ∧ u = k + 2 ∧ v = nodeOf body.length k'
  coherent : g.Coherent
  labelsOnce : LabelsOnce body
  target_mem : ∀ i ∈ body, ∀ l, i.jumpTarget? = some l → .label l ∈ body

namespace Build

/-! ### Steps of the construction -/

theorem bind_eq {α β : Type} (x : Build α) (f : α → Build β) (d : Draft) :
    (x >>= f) d = (x d).bind fun r => f r.1 r.2 := rfl

/-- A graph with an edge from the cursor, if there is one. -/
def linked (cursor : Option Nat) (node : Nat) (g : FlowGraph) : FlowGraph :=
  match cursor with
  | some last => g.addEdge last node
  | none => g

theorem connect_eq (node : Nat) (d : Draft) :
    connect node d = .ok ((), { d with graph := linked d.cursor node d.graph }) := by
  obtain ⟨g, calls, entered, captures, cursor⟩ := d
  cases cursor <;> rfl

/-- The label that an instruction repeats. -/
def Landmarks.repeated? (marks : Landmarks) : Instr → Option String
  | .label l => if (marks.labels.lookup l).isSome then some l else none
  | _ => none

/-- The landmarks with those of an instruction at a node. -/
def Landmarks.add (marks : Landmarks) (node : Nat) : Instr → Landmarks
  | .label l => { marks with labels := marks.labels ++ [(l, node)] }
  | .jump l | .branch _ l => { marks with jumps := marks.jumps ++ [(node, l)] }
  | _ => marks

/-- The draft with the node of an instruction at a position. -/
def drawn (name : String) (index : Nat) (i : Instr) (d : Draft) : Draft :=
  { d with
    graph := linked d.cursor d.graph.size (d.graph.placeInstr name index i)
    cursor := if i.fallsThrough then some d.graph.size else none }

theorem addInstr_eq (name : String) (marks : Landmarks) (i : Instr) (index : Nat) (d : Draft) :
    addInstr none name marks (i, index) d =
      match marks.repeated? i with
      | some l => .error (.duplicateLabel l name)
      | none => .ok (marks.add d.graph.size i, drawn name index i d) := by
  obtain ⟨g, calls, entered, captures, cursor⟩ := d
  cases i with
  | label l =>
    by_cases h : (marks.labels.lookup l).isSome = true
    · cases cursor <;> simp only [Landmarks.repeated?, addInstr, if_pos h] <;> rfl
    · cases cursor <;> simp only [Landmarks.repeated?, addInstr, if_neg h] <;> rfl
  | _ => cases cursor <;> rfl

/-! ### The draft of a body -/

/-- The node from which control goes on behind some instructions. -/
def cursorAfter (pre : List Instr) : Option Nat :=
  match pre.getLast? with
  | none => some 0
  | some i => if i.fallsThrough then some (pre.length + 1) else none

theorem cursorAfter_append (pre : List Instr) (i : Instr) :
    cursorAfter (pre ++ [i]) = if i.fallsThrough then some (pre.length + 2) else none := by
  simp [cursorAfter]

/-- The draft after some instructions of a body. -/
structure Draws (name : String) (pre : List Instr) (marks : Landmarks) (d : Draft) : Prop where
  root_eq : d.graph.root = name
  nodes_eq : d.graph.nodes.toList = nodesOf name pre
  boundaries_eq : d.graph.boundaries = (∅ : NameMap Boundary).insert name ⟨0, 1⟩
  positions_eq : d.graph.positions = (List.range pre.length).map fun k => ((name, k), k + 2)
  cursor_eq : d.cursor = cursorAfter pre
  mem_edges : ∀ u v, ⟨u, v⟩ ∈ d.graph.edges ↔
    ∃ k < pre.length, cursorAfter (pre.take k) = some u ∧ v = k + 2
  mem_labels : ∀ l v, (l, v) ∈ marks.labels ↔ ∃ k, pre[k]? = some (.label l) ∧ v = k + 2
  mem_jumps : ∀ u l, (u, l) ∈ marks.jumps ↔
    ∃ k i, pre[k]? = some i ∧ i.jumpTarget? = some l ∧ u = k + 2
  labelsOnce : LabelsOnce pre

theorem Draws.size_eq {name : String} {pre : List Instr} {marks : Landmarks} {d : Draft}
    (h : Draws name pre marks d) : d.graph.size = pre.length + 2 := by
  rw [FlowGraph.size, ← Array.length_toList, h.nodes_eq, length_nodesOf]

theorem lookup_positions (name : String) (n k : Nat) :
    ((List.range n).map fun k => ((name, k), k + 2)).lookup (name, k) =
      if k < n then some (k + 2) else none := by
  induction n with
  | zero => rfl
  | succ n ih =>
    rw [List.range_succ, List.map_append, List.lookup_append, ih]
    by_cases h : k < n
    · simp [h, Nat.lt_succ_of_lt h]
    · by_cases hk : k = n
      · simp [hk]
      · have : ¬ k < n + 1 := by omega
        simp [h, hk, this]

theorem Draws.position_eq {name : String} {pre : List Instr} {marks : Landmarks} {d : Draft}
    (h : Draws name pre marks d) (k : Nat) :
    d.graph.position? name k = if k < pre.length then some (k + 2) else none := by
  rw [FlowGraph.position?, h.positions_eq, lookup_positions]

theorem linked_frame (cursor : Option Nat) (node : Nat) (g : FlowGraph) :
    (linked cursor node g).root = g.root ∧ (linked cursor node g).nodes = g.nodes ∧
      (linked cursor node g).boundaries = g.boundaries ∧
      (linked cursor node g).positions = g.positions := by
  cases cursor <;> simp [linked]

theorem mem_edges_linked {cursor : Option Nat} {node u v : Nat} {g : FlowGraph} :
    ⟨u, v⟩ ∈ (linked cursor node g).edges ↔ ⟨u, v⟩ ∈ g.edges ∨ cursor = some u ∧ v = node := by
  cases cursor with
  | none => simp [linked]
  | some last => simp [linked, eq_comm]

theorem Draws.placeInstr_eq {name : String} {pre : List Instr} {marks : Landmarks} {d : Draft}
    (h : Draws name pre marks d) (i : Instr) :
    d.graph.placeInstr name pre.length i =
      { d.graph with
        nodes := d.graph.nodes.push ⟨name, .instr i⟩
        positions := d.graph.positions ++ [((name, pre.length), pre.length + 2)]
        settled := false } := by
  have hnone : d.graph.position? name pre.length = none := by
    rw [h.position_eq, if_neg (Nat.lt_irrefl _)]
  have hnone' : (d.graph.addNode name (.instr i)).position? name pre.length = none := hnone
  simp only [FlowGraph.placeInstr, hnone, FlowGraph.mapPosition, hnone', h.size_eq]
  rfl

theorem getElem?_append_singleton {α : Type} {pre : List α} {i j : α} {k : Nat} :
    (pre ++ [i])[k]? = some j ↔ pre[k]? = some j ∨ k = pre.length ∧ j = i := by
  by_cases hk : k < pre.length
  · have : k ≠ pre.length := by omega
    simp [List.getElem?_append_left hk, this]
  · rw [List.getElem?_append_right (by omega), List.getElem?_eq_none (by omega : pre.length ≤ k)]
    by_cases hk' : k = pre.length
    · simp [hk', eq_comm]
    · have : 1 ≤ k - pre.length := by omega
      simp [hk', List.getElem?_eq_none (l := [i]) (i := k - pre.length) (by simpa using this)]

theorem Landmarks.mem_labels_add {marks : Landmarks} {node v : Nat} {i : Instr} {l : String} :
    (l, v) ∈ (marks.add node i).labels ↔ (l, v) ∈ marks.labels ∨ i = .label l ∧ v = node := by
  cases i <;> simp [Landmarks.add, eq_comm]

theorem Landmarks.mem_jumps_add {marks : Landmarks} {node u : Nat} {i : Instr} {l : String} :
    (u, l) ∈ (marks.add node i).jumps ↔
      (u, l) ∈ marks.jumps ∨ i.jumpTarget? = some l ∧ u = node := by
  cases i <;> simp [Landmarks.add, Instr.jumpTarget?, eq_comm, and_comm]

/-- A label that has a node is repeated. -/
theorem Landmarks.notMem_labels {marks : Landmarks} {l : String}
    (hnew : marks.repeated? (.label l) = none) (n : Nat) : (l, n) ∉ marks.labels := by
  intro hn
  have hsome : (marks.labels.lookup l).isSome := by
    rw [List.lookup_isSome_iff]
    exact ⟨_, hn, by simp⟩
  simp [Landmarks.repeated?, hsome] at hnew

/-- A label that stands at an earlier position is repeated. -/
theorem Draws.ne_label {name : String} {pre : List Instr} {marks : Landmarks} {d : Draft}
    (h : Draws name pre marks d) {i : Instr} (hnew : marks.repeated? i = none) {k : Nat}
    {l : String} (hk : pre[k]? = some (.label l)) : i ≠ .label l := by
  rintro rfl
  exact Landmarks.notMem_labels hnew (k + 2) ((h.mem_labels l (k + 2)).2 ⟨k, hk, rfl⟩)

/-- One more instruction repeats no label if it is not a label that stands already. -/
theorem labelsOnce_append_singleton {pre : List Instr} {i : Instr} (h : LabelsOnce pre)
    (hnew : ∀ l, i = .label l → .label l ∉ pre) : LabelsOnce (pre ++ [i]) := by
  intro k k' l hk hk'
  rw [getElem?_append_singleton] at hk hk'
  rcases hk with hk | ⟨rfl, hi⟩ <;> rcases hk' with hk' | ⟨rfl, hi'⟩
  · exact h k k' l hk hk'
  · exact absurd (List.mem_of_getElem? hk) (hnew l hi'.symm)
  · exact absurd (List.mem_of_getElem? hk') (hnew l hi.symm)
  · rfl

/-- One more instruction. -/
theorem Draws.drawn {name : String} {pre : List Instr} {marks : Landmarks} {d : Draft}
    (h : Draws name pre marks d) (i : Instr) (hnew : marks.repeated? i = none) :
    Draws name (pre ++ [i]) (marks.add d.graph.size i) (drawn name pre.length i d) := by
  obtain ⟨hroot, hnodes, hbounds, hpositions⟩ :=
    linked_frame d.cursor d.graph.size (d.graph.placeInstr name pre.length i)
  have hplace := h.placeInstr_eq i
  refine ⟨?_, ?_, ?_, ?_, ?_, fun u v => ?_, fun l v => ?_, fun u l => ?_, ?_⟩
  · rw [Build.drawn, hroot, hplace]
    exact h.root_eq
  · rw [Build.drawn, hnodes, hplace, nodesOf_append, ← h.nodes_eq]
    simp
  · rw [Build.drawn, hbounds, hplace]
    exact h.boundaries_eq
  · rw [Build.drawn, hpositions, hplace, List.length_append, List.length_singleton,
      List.range_succ, List.map_append, ← h.positions_eq]
    rfl
  · rw [cursorAfter_append, Build.drawn, h.size_eq]
  · rw [Build.drawn, mem_edges_linked, hplace, h.mem_edges, h.cursor_eq, h.size_eq]
    constructor
    · rintro (⟨k, hk, hu, rfl⟩ | ⟨hu, rfl⟩)
      · refine ⟨k, by simp; omega, ?_, rfl⟩
        rwa [List.take_append_of_le_length (by omega)]
      · exact ⟨pre.length, by simp, by simpa using hu, rfl⟩
    · rintro ⟨k, hk, hu, rfl⟩
      rw [List.length_append, List.length_singleton] at hk
      rw [List.take_append_of_le_length (by omega)] at hu
      by_cases hlast : k = pre.length
      · right
        rw [hlast, List.take_length] at hu
        exact ⟨hu, by rw [hlast]⟩
      · exact Or.inl ⟨k, by omega, hu, rfl⟩
  · rw [Landmarks.mem_labels_add, h.mem_labels, h.size_eq]
    simp only [getElem?_append_singleton]
    constructor
    · rintro (⟨k, hk, rfl⟩ | ⟨rfl, rfl⟩)
      · exact ⟨k, Or.inl hk, rfl⟩
      · exact ⟨pre.length, Or.inr ⟨rfl, rfl⟩, rfl⟩
    · rintro ⟨k, hk | ⟨rfl, rfl⟩, rfl⟩
      · exact Or.inl ⟨k, hk, rfl⟩
      · exact Or.inr ⟨rfl, rfl⟩
  · rw [Landmarks.mem_jumps_add, h.mem_jumps, h.size_eq]
    simp only [getElem?_append_singleton]
    constructor
    · rintro (⟨k, j, hk, hj, rfl⟩ | ⟨hi, rfl⟩)
      · exact ⟨k, j, Or.inl hk, hj, rfl⟩
      · exact ⟨pre.length, i, Or.inr ⟨rfl, rfl⟩, hi, rfl⟩
    · rintro ⟨k, j, hk | ⟨rfl, rfl⟩, hj, rfl⟩
      · exact Or.inl ⟨k, j, hk, hj, rfl⟩
      · exact Or.inr ⟨hj, rfl⟩
  · refine labelsOnce_append_singleton h.labelsOnce fun l hl hmem => ?_
    obtain ⟨k, hk⟩ := List.getElem?_of_mem hmem
    exact h.ne_label hnew hk hl

/-- The instructions of a body in their order. -/
theorem Draws.foldlM {name : String} {pre post : List Instr} {marks marks' : Landmarks}
    {d d' : Draft} (h : Draws name pre marks d)
    (hrun : (post.zipIdx pre.length).foldlM (addInstr none name) marks d = .ok (marks', d')) :
    Draws name (pre ++ post) marks' d' := by
  induction post generalizing pre marks d with
  | nil =>
    cases hrun
    simpa using h
  | cons i post ih =>
    rw [List.zipIdx_cons, List.foldlM_cons] at hrun
    obtain ⟨m, e, hi, hrest⟩ := Outcome.stateT_bind_eq_ok hrun
    rw [addInstr_eq] at hi
    split at hi
    · cases hi
    case h_2 hnew =>
      cases hi
      have hstep := h.drawn i hnew
      rw [show pre.length + 1 = (pre ++ [i]).length by simp] at hrest
      simpa using ih hstep hrest

/-! ### Jumps -/

theorem addJump_eq_ok {name : String} {marks : Landmarks} {node : Nat} {l : String} {d : Draft}
    {r : Unit × Draft} (h : addJump name marks node l d = .ok r) :
    ∃ target, marks.labels.lookup l = some target ∧
      r = ((), { d with graph := d.graph.addEdge node target }) := by
  cases hl : marks.labels.lookup l with
  | none =>
    simp only [addJump, hl] at h
    cases h
  | some target =>
    simp only [addJump, hl] at h
    cases h
    exact ⟨target, rfl, rfl⟩

/-- The jumps add the edges to their labels. -/
theorem forM_addJump_eq_ok {name : String} {marks : Landmarks} {jumps : List (Nat × String)}
    {d : Draft} {r : Unit × Draft}
    (h : (jumps.forM fun (node, l) => addJump name marks node l) d = .ok r) :
    ∃ es, r.2 = { d with graph := d.graph.addEdges es } ∧
      (∀ u v, ⟨u, v⟩ ∈ es ↔ ∃ l, (u, l) ∈ jumps ∧ marks.labels.lookup l = some v) ∧
      ∀ u l, (u, l) ∈ jumps → (marks.labels.lookup l).isSome := by
  induction jumps generalizing d with
  | nil =>
    cases h
    exact ⟨[], rfl, by simp, by simp⟩
  | cons j jumps ih =>
    obtain ⟨u, l⟩ := j
    obtain ⟨⟨⟩, e, hj, hrest⟩ :=
      Outcome.stateT_bind_eq_ok (x := addJump name marks u l) (f := fun _ => jumps.forM _) h
    obtain ⟨target, htarget, he⟩ := addJump_eq_ok hj
    cases he
    obtain ⟨es, hr, hes, hsome⟩ := ih hrest
    refine ⟨⟨u, target⟩ :: es, ?_, fun u' v => ?_, fun u' l' hl' => ?_⟩
    · rw [hr, FlowGraph.addEdges_cons]
    · rw [List.mem_cons, hes]
      constructor
      · rintro (he | ⟨l', hl', hv⟩)
        · cases he
          exact ⟨l, by simp, htarget⟩
        · exact ⟨l', List.mem_cons_of_mem _ hl', hv⟩
      · rintro ⟨l', hl', hv⟩
        rcases List.mem_cons.1 hl' with he | hl'
        · cases he
          rw [htarget] at hv
          cases hv
          exact Or.inl rfl
        · exact Or.inr ⟨l', hl', hv⟩
    · rcases List.mem_cons.1 hl' with he | hl'
      · cases he
        rw [htarget]
        rfl
      · exact hsome u' l' hl'

/-! ### The whole body -/

/-- The draft with which the construction of a body starts. -/
def blank (name : String) : Draft :=
  { graph := .ofRoot name, calls := { root := name }, entered := .ofList [name], cursor := some 0 }

theorem ofRoot_eq (name : String) : FlowGraph.ofRoot name =
    { root := name, nodes := #[⟨name, .start⟩, ⟨name, .stop⟩], edges := #[],
      boundaries := (∅ : NameMap Boundary).insert name ⟨0, 1⟩, positions := [],
      neighbours := #[], settled := false } := rfl

theorem draws_blank (name : String) : Draws name [] {} (blank name) where
  root_eq := rfl
  nodes_eq := rfl
  boundaries_eq := rfl
  positions_eq := rfl
  cursor_eq := rfl
  mem_edges u v := by simp [blank, ofRoot_eq]
  mem_labels l v := by simp
  mem_jumps u l := by simp
  labelsOnce := by simp [LabelsOnce]

theorem find?_insert_self (name : String) (b : Boundary) :
    ((∅ : NameMap Boundary).insert name b).find? name = some b := by
  simp [NameMap.find?_insert]

/-- Of a graph under construction, `settle` needs to know the edges and the boundary. -/
theorem coherent_of_boundaries {g : FlowGraph} {name : String} (hroot : g.root = name)
    (hbounds : g.boundaries = (∅ : NameMap Boundary).insert name ⟨0, 1⟩) (hsize : 1 < g.size)
    (hedges : ∀ u v, ⟨u, v⟩ ∈ g.edges → u < g.size ∧ v < g.size) : g.settle.Coherent := by
  have hb : ∀ f b, g.boundary? f = some b → b = ⟨0, 1⟩ := by
    intro f b hf
    rw [FlowGraph.boundary?, hbounds, NameMap.find?_insert] at hf
    split at hf
    · cases hf
      rfl
    · cases hf
  have hr : g.rootBoundary = ⟨0, 1⟩ := by
    rw [FlowGraph.rootBoundary, FlowGraph.boundary?, hbounds, hroot, find?_insert_self]
    rfl
  refine FlowGraph.coherent_settle hedges (fun f b hf => ?_) ?_
  · rw [hb f b hf]
    exact ⟨Nat.lt_trans Nat.zero_lt_one hsize, hsize⟩
  · rw [hr]
    exact ⟨Nat.lt_trans Nat.zero_lt_one hsize, hsize⟩

theorem addProcedure_of_contains {g : FlowGraph} {name : String} {b : Boundary}
    (h : g.boundary? name = some b) : g.addProcedure name = g := by
  have hc : g.boundaries.contains name = true := by
    rw [NameMap.contains, show g.boundaries.find? name = some b from h]
    rfl
  rw [FlowGraph.addProcedure, if_pos hc]

/-- The boundary of the root is there from the beginning. -/
theorem boundary_root (name : String) (calls : CallGraph) (entered : OrderedSet String) :
    boundary name { graph := .ofRoot name, calls := calls, entered := entered } =
      .ok (⟨0, 1⟩, { graph := .ofRoot name, calls := calls, entered := entered }) := by
  have hb : (FlowGraph.ofRoot name).boundary? name = some ⟨0, 1⟩ := find?_insert_self name ⟨0, 1⟩
  show Except.ok ((((FlowGraph.ofRoot name).addProcedure name).boundary? name).getD ⟨0, 0⟩,
    ({ graph := (FlowGraph.ofRoot name).addProcedure name, calls := calls, entered := entered } :
      Draft)) = _
  rw [addProcedure_of_contains hb, hb]
  rfl

/-- The body of a procedure, between a start and a stop that are there already. -/
def sequence (name : String) (body : List Instr) : Build Unit := do
  let marks ← body.zipIdx.foldlM (addInstr none name) {}
  connect 1
  marks.jumps.forM fun (node, l) => addJump name marks node l

theorem complete_eq (f : Procedure) :
    complete none f =
      (sequence f.name f.body (blank f.name)).map fun r => (r.2.graph.settle, r.2.calls) := by
  have hbody : addBody none f.name [] f.body
      { graph := .ofRoot f.name, calls := { root := f.name }, entered := .ofList [f.name] } =
        sequence f.name f.body (blank f.name) := by
    unfold addBody
    rw [bind_eq, boundary_root]
    rfl
  unfold complete
  dsimp only
  rw [StateT.run, hbody]
  cases sequence f.name f.body (blank f.name) <;> rfl

theorem cursorAfter_take {body : List Instr} {k u : Nat} (hk : k ≤ body.length) :
    cursorAfter (body.take k) = some u ↔ u = 0 ∧ k = 0 ∨
      ∃ j i, k = j + 1 ∧ body[j]? = some i ∧ i.fallsThrough = true ∧ u = j + 2 := by
  cases k with
  | zero =>
    rw [show cursorAfter (body.take 0) = some 0 from rfl]
    constructor
    · intro h
      cases h
      exact Or.inl ⟨rfl, rfl⟩
    · rintro (⟨rfl, -⟩ | ⟨j, i, hj, -⟩)
      · rfl
      · omega
  | succ j =>
    have hj : j < body.length := by omega
    rw [List.take_succ_eq_append_getElem hj, cursorAfter_append]
    have hget : body[j]? = some body[j] := List.getElem?_eq_getElem hj
    split
    case isTrue hf =>
      constructor
      · intro h
        cases h
        exact Or.inr ⟨j, body[j], rfl, hget, hf, by simp; omega⟩
      · rintro (⟨-, h⟩ | ⟨j', i, hj', hi, -, rfl⟩)
        · omega
        · obtain rfl : j = j' := by omega
          simp
          omega
    case isFalse hf =>
      constructor
      · intro h
        cases h
      · rintro (⟨-, h⟩ | ⟨j', i, hj', hi, hfi, rfl⟩)
        · omega
        · obtain rfl : j = j' := by omega
          rw [hget] at hi
          cases hi
          exact absurd hfi hf

/-- The label of a jump stands where the table of labels says. -/
theorem Draws.lookup_eq_some {name : String} {body : List Instr} {marks : Landmarks} {d : Draft}
    (h : Draws name body marks d) {l : String} {v : Nat} :
    marks.labels.lookup l = some v ↔ ∃ k, body[k]? = some (.label l) ∧ v = k + 2 := by
  rw [← h.mem_labels]
  constructor
  · intro hl
    obtain ⟨as, bs, heq, -⟩ := List.lookup_eq_some_iff.1 hl
    simp [heq]
  · intro hl
    have hsome : (marks.labels.lookup l).isSome := by
      rw [List.lookup_isSome_iff]
      exact ⟨_, hl, by simp⟩
    obtain ⟨w, hw⟩ := Option.isSome_iff_exists.1 hsome
    obtain ⟨as, bs, heq, -⟩ := List.lookup_eq_some_iff.1 hw
    have hw' : (l, w) ∈ marks.labels := by simp [heq]
    obtain ⟨k, hk, rfl⟩ := (h.mem_labels l v).1 hl
    obtain ⟨k', hk', rfl⟩ := (h.mem_labels l w).1 hw'
    rw [hw, h.labelsOnce k k' l hk hk']

/-- The edges from one node to the next: from the start, and from every instruction behind which
control goes on. -/
theorem cursor_edges_iff {body : List Instr} {u v : Nat} :
    ((∃ k < body.length, cursorAfter (body.take k) = some u ∧ v = k + 2) ∨
        cursorAfter body = some u ∧ v = 1) ↔
      u = 0 ∧ v = nodeOf body.length 0 ∨
        ∃ k i, body[k]? = some i ∧ i.fallsThrough = true ∧ u = k + 2 ∧
          v = nodeOf body.length (k + 1) := by
  -- Both kinds of edges lead to the node of a position, the last one to the stop.
  have hnode : ((∃ k < body.length, cursorAfter (body.take k) = some u ∧ v = k + 2) ∨
      cursorAfter body = some u ∧ v = 1) ↔
        ∃ k ≤ body.length, cursorAfter (body.take k) = some u ∧ v = nodeOf body.length k := by
    constructor
    · rintro (⟨k, hk, hu, rfl⟩ | ⟨hu, rfl⟩)
      · exact ⟨k, Nat.le_of_lt hk, hu, by rw [nodeOf, if_pos hk]⟩
      · exact ⟨body.length, Nat.le_refl _, by rwa [List.take_length],
          by rw [nodeOf, if_neg (Nat.lt_irrefl _)]⟩
    · rintro ⟨k, hk, hu, rfl⟩
      by_cases hlast : k < body.length
      · exact Or.inl ⟨k, hlast, hu, by rw [nodeOf, if_pos hlast]⟩
      · rw [List.take_of_length_le (by omega)] at hu
        exact Or.inr ⟨hu, by rw [nodeOf, if_neg hlast]⟩
  rw [hnode]
  constructor
  · rintro ⟨k, hk, hu, rfl⟩
    rcases (cursorAfter_take hk).1 hu with ⟨rfl, rfl⟩ | ⟨j, i, rfl, hj, hf, rfl⟩
    · exact Or.inl ⟨rfl, rfl⟩
    · exact Or.inr ⟨j, i, hj, hf, rfl, rfl⟩
  · rintro (⟨rfl, rfl⟩ | ⟨k, i, hk, hf, rfl, rfl⟩)
    · exact ⟨0, Nat.zero_le _, rfl, rfl⟩
    · have hlt : k < body.length := (List.getElem?_eq_some_iff.1 hk).1
      exact ⟨k + 1, hlt, (cursorAfter_take hlt).2 (Or.inr ⟨k, i, rfl, hk, hf, rfl⟩), rfl⟩

/-- The edges of the jumps lead to their labels. -/
theorem Draws.jump_edges_iff {name : String} {body : List Instr} {marks : Landmarks} {d : Draft}
    (h : Draws name body marks d) {u v : Nat} :
    (∃ l, (u, l) ∈ marks.jumps ∧ marks.labels.lookup l = some v) ↔
      ∃ k k' i l, body[k]? = some i ∧ i.jumpTarget? = some l ∧ body[k']? = some (.label l) ∧
        u = k + 2 ∧ v = nodeOf body.length k' := by
  have hnode {k' : Nat} {l : String} (hk' : body[k']? = some (.label l)) :
      nodeOf body.length k' = k' + 2 := by
    rw [nodeOf, if_pos (List.getElem?_eq_some_iff.1 hk').1]
  constructor
  · rintro ⟨l, hl, hv⟩
    obtain ⟨k, i, hk, hi, rfl⟩ := (h.mem_jumps u l).1 hl
    obtain ⟨k', hk', rfl⟩ := h.lookup_eq_some.1 hv
    exact ⟨k, k', i, l, hk, hi, hk', rfl, (hnode hk').symm⟩
  · rintro ⟨k, k', i, l, hk, hi, hk', rfl, rfl⟩
    exact ⟨l, (h.mem_jumps _ _).2 ⟨k, i, hk, hi, rfl⟩, h.lookup_eq_some.2 ⟨k', hk', hnode hk'⟩⟩

/-- The draft after the whole body: its edges are the steps of control. -/
theorem mem_edges_sequence {name : String} {body : List Instr} {r : Unit × Draft}
    (h : sequence name body (blank name) = .ok r) :
    ∃ marks d, Draws name body marks d ∧
      (∀ i ∈ body, ∀ l, i.jumpTarget? = some l → .label l ∈ body) ∧
      r.2.graph.root = d.graph.root ∧ r.2.graph.nodes = d.graph.nodes ∧
      r.2.graph.boundaries = d.graph.boundaries ∧ r.2.graph.positions = d.graph.positions ∧
      ∀ u v, ⟨u, v⟩ ∈ r.2.graph.edges ↔ u = 0 ∧ v = nodeOf body.length 0 ∨
        ∃ k k', Continues body k k' ∧ u = k + 2 ∧ v = nodeOf body.length k' := by
  obtain ⟨marks, d, hfold, hrest⟩ := Outcome.stateT_bind_eq_ok h
  obtain ⟨⟨⟩, e, hconnect, hjumps⟩ := Outcome.stateT_bind_eq_ok hrest
  have hd : Draws name body marks d := (draws_blank name).foldlM hfold
  rw [connect_eq] at hconnect
  cases hconnect
  obtain ⟨es, hr, hes, hsome⟩ := forM_addJump_eq_ok hjumps
  have hframe := FlowGraph.addEdges_frame (linked d.cursor 1 d.graph) es
  have hlinked := linked_frame d.cursor 1 d.graph
  refine ⟨marks, d, hd, fun i hi l hl => ?_, ?_, ?_, ?_, ?_, fun u v => ?_⟩
  · obtain ⟨k, hk⟩ := List.getElem?_of_mem hi
    obtain ⟨v, hv⟩ := Option.isSome_iff_exists.1
      (hsome (k + 2) l ((hd.mem_jumps _ _).2 ⟨k, i, hk, hl, rfl⟩))
    obtain ⟨k', hk', -⟩ := hd.lookup_eq_some.1 hv
    exact List.mem_of_getElem? hk'
  · rw [hr, hframe.2.1, hlinked.1]
  · rw [hr, hframe.1, hlinked.2.1]
  · rw [hr, hframe.2.2.1, hlinked.2.2.1]
  · rw [hr, hframe.2.2.2, hlinked.2.2.2]
  · rw [hr, FlowGraph.mem_edges_addEdges, mem_edges_linked, hd.mem_edges, hd.cursor_eq, hes,
      cursor_edges_iff, hd.jump_edges_iff]
    constructor
    · rintro ((hstart | ⟨k, i, hk, hf, rfl, rfl⟩) | ⟨k, k', i, l, hk, hl, hk', rfl, rfl⟩)
      · exact Or.inl hstart
      · exact Or.inr ⟨k, k + 1, ⟨i, hk, Or.inl ⟨hf, rfl⟩⟩, rfl, rfl⟩
      · exact Or.inr ⟨k, k', ⟨i, hk, Or.inr ⟨l, hl, hk'⟩⟩, rfl, rfl⟩
    · rintro (hstart | ⟨k, k', ⟨i, hk, ⟨hf, rfl⟩ | ⟨l, hl, hk'⟩⟩, rfl, rfl⟩)
      · exact Or.inl (Or.inl hstart)
      · exact Or.inl (Or.inr ⟨k, i, hk, hf, rfl, rfl⟩)
      · exact Or.inr ⟨k, k', i, l, hk, hl, hk', rfl, rfl⟩

/-- A node other than the stop has a way out, so that settling adds no edge. -/
theorem dangling_sequence {g : FlowGraph} {name : String} {body : List Instr}
    (hnodes : g.nodes.toList = nodesOf name body)
    (htargets : ∀ i ∈ body, ∀ l, i.jumpTarget? = some l → .label l ∈ body)
    (hedges : ∀ u v, ⟨u, v⟩ ∈ g.edges ↔ u = 0 ∧ v = nodeOf body.length 0 ∨
      ∃ k k', Continues body k k' ∧ u = k + 2 ∧ v = nodeOf body.length k') :
    g.dangling = [] := by
  rw [List.eq_nil_iff_forall_not_mem]
  intro e he
  obtain ⟨hnone, n, b, hn, hstop, -⟩ := FlowGraph.mem_dangling he
  have hn' : (nodesOf name body)[e.source]? = some n := by
    rw [← hnodes, Array.getElem?_toList]
    exact hn
  rcases hu : e.source with - | - | k
  · exact hnone _ ((hedges _ _).2 (Or.inl ⟨hu, rfl⟩))
  · rw [hu] at hn'
    cases hn'
    cases hstop
  · rw [hu] at hn'
    obtain ⟨i, hi, -⟩ : ∃ i, body[k]? = some i ∧ (⟨name, .instr i⟩ : Node) = n := by
      simpa [nodesOf] using hn'
    have hout : ∃ k', Continues body k k' := by
      by_cases hf : i.fallsThrough = true
      · exact ⟨k + 1, i, hi, Or.inl ⟨hf, rfl⟩⟩
      · cases i with
        | jump l =>
          obtain ⟨k', hk'⟩ := List.getElem?_of_mem (htargets _ (List.mem_of_getElem? hi) l rfl)
          exact ⟨k', .jump l, hi, Or.inr ⟨l, rfl, hk'⟩⟩
        | _ => exact absurd rfl hf
    obtain ⟨k', hk'⟩ := hout
    exact hnone _ ((hedges _ _).2 (Or.inr ⟨k, k', hk', hu, rfl⟩))

/-- **The graph of a body is its control flow.** -/
theorem complete_isGraphOf {f : Procedure} {g : FlowGraph} {calls : CallGraph}
    (h : complete none f = .ok (g, calls)) : g.IsGraphOf f.name f.body := by
  rw [complete_eq] at h
  cases hr : sequence f.name f.body (blank f.name) with
  | error e =>
    rw [hr] at h
    cases h
  | ok r =>
    rw [hr] at h
    cases h
    obtain ⟨marks, d, hd, htargets, hroot, hnodes, hbounds, hpositions, hedges⟩ :=
      mem_edges_sequence hr
    have hnodes' : r.2.graph.nodes.toList = nodesOf f.name f.body := by rw [hnodes, hd.nodes_eq]
    have hsize : r.2.graph.size = f.body.length + 2 := by
      rw [FlowGraph.size, ← Array.length_toList, hnodes', length_nodesOf]
    have hdangling := dangling_sequence hnodes' htargets hedges
    have hnode : ∀ k, nodeOf f.body.length k < f.body.length + 2 := by
      intro k
      unfold nodeOf
      split <;> omega
    refine ⟨?_, ?_, ?_, fun k hk => ?_, fun u v => ?_, ?_, hd.labelsOnce, htargets⟩
    · rw [FlowGraph.root_settle, hroot, hd.root_eq]
    · rw [FlowGraph.nodes_settle, hnodes']
    · rw [FlowGraph.boundaries_settle, hbounds, hd.boundaries_eq]
    · rw [FlowGraph.position?, FlowGraph.positions_settle, hpositions, ← FlowGraph.position?,
        hd.position_eq, if_pos hk]
    · rw [FlowGraph.mem_edges_settle, hdangling, hedges]
      simp
    · refine coherent_of_boundaries (hroot.trans hd.root_eq) (hbounds.trans hd.boundaries_eq)
        (by omega) fun u v huv => ?_
      rw [hsize]
      rcases (hedges u v).1 huv with ⟨rfl, rfl⟩ | ⟨k, k', ⟨i, hi, -⟩, rfl, rfl⟩
      · exact ⟨by omega, hnode _⟩
      · have hk : k < f.body.length := (List.getElem?_eq_some_iff.1 hi).1
        exact ⟨by omega, hnode _⟩

end Build

/-- The graph of a procedure alone. -/
theorem FlowGraph.ofProcedure_isGraphOf {f : Procedure} {g : FlowGraph}
    (h : FlowGraph.ofProcedure f = .ok g) : g.IsGraphOf f.name f.body := by
  unfold FlowGraph.ofProcedure at h
  cases hc : Build.complete none f with
  | error e =>
    rw [hc] at h
    cases h
  | ok r =>
    rw [hc] at h
    cases h
    exact Build.complete_isGraphOf hc

/-! ### Looking up nodes -/

namespace FlowGraph.IsGraphOf

variable {g : FlowGraph} {name : String} {body : List Instr}

theorem rootBoundary_eq (h : g.IsGraphOf name body) : g.rootBoundary = ⟨0, 1⟩ := by
  rw [rootBoundary, boundary?, h.boundaries_eq, h.root_eq, Build.find?_insert_self]
  rfl

theorem start_eq (h : g.IsGraphOf name body) : g.start = 0 := by
  rw [start, h.rootBoundary_eq]

theorem node_start (h : g.IsGraphOf name body) : g.nodes[0]? = some ⟨name, .start⟩ := by
  rw [← Array.getElem?_toList, h.nodes_eq]
  rfl

theorem node_stop (h : g.IsGraphOf name body) : g.nodes[1]? = some ⟨name, .stop⟩ := by
  rw [← Array.getElem?_toList, h.nodes_eq]
  rfl

theorem node_instr (h : g.IsGraphOf name body) (k : Nat) :
    g.nodes[k + 2]? = body[k]?.map fun i => ⟨name, .instr i⟩ := by
  rw [← Array.getElem?_toList, h.nodes_eq]
  simp [nodesOf]

/-- Control never leaves the body for another one. -/
theorem crosses_eq_false (h : g.IsGraphOf name body) {u : Nat} {n : Node}
    (hn : g.nodes[u]? = some n) : n.crosses = false := by
  have hmem := Array.mem_toList_iff.2 (Array.mem_of_getElem? hn)
  rw [h.nodes_eq, nodesOf] at hmem
  simp only [List.mem_cons, List.mem_map] at hmem
  rcases hmem with rfl | rfl | ⟨i, -, rfl⟩ <;> rfl

theorem instr?_eq (h : g.IsGraphOf name body) (k : Nat) : g.instr? (k + 2) = body[k]? := by
  rw [instr?, h.node_instr]
  cases body[k]? <;> rfl

/-- Only the nodes of positions hold instructions. -/
theorem instr?_eq_some (h : g.IsGraphOf name body) {u : Nat} {i : Instr} :
    g.instr? u = some i ↔ ∃ k, body[k]? = some i ∧ u = k + 2 := by
  constructor
  · intro hi
    rcases u with - | - | k
    · rw [instr?, h.node_start] at hi
      cases hi
    · rw [instr?, h.node_stop] at hi
      cases hi
    · exact ⟨k, by rw [← h.instr?_eq, hi], rfl⟩
  · rintro ⟨k, hk, rfl⟩
    rw [h.instr?_eq, hk]

/-- The instruction nodes are the positions of the body. -/
theorem mem_instrNodes (h : g.IsGraphOf name body) {u : Nat} {i : Instr} :
    (u, i) ∈ g.instrNodes ↔ ∃ k, body[k]? = some i ∧ u = k + 2 :=
  FlowGraph.mem_instrNodes.trans h.instr?_eq_some

end FlowGraph.IsGraphOf

end ParLoop
