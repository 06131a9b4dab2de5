import ParLoop.Proofs.FlowGraph.Operations

/-!
# The neighbours of the nodes of a settled graph

A graph is coherent when the successors and predecessors of its nodes are those that its edges say,
and its edges and its boundary join existing nodes. `neighbours_eq_of_table` says in which order the
neighbours are listed, `coherent_settle` that settling makes a graph coherent if its edges join
existing nodes.
-/

namespace ParLoop.FlowGraph

/-- The neighbours of all nodes are those that the edges give; no edge leads out of the graph. -/
structure Coherent (g : FlowGraph) : Prop where
  mem_successors : ∀ u v, v ∈ g.successors u ↔ ⟨u, v⟩ ∈ g.edges
  mem_predecessors : ∀ u v, u ∈ g.predecessors v ↔ ⟨u, v⟩ ∈ g.edges
  lt_size : ∀ u v, ⟨u, v⟩ ∈ g.edges → u < g.size ∧ v < g.size
  start_lt : g.start < g.size
  stop_lt : g.stop < g.size

/-! ### The table of neighbours -/

theorem size_join (t : Array Neighbours) (e : Edge) : (Neighbours.join t e).size = t.size := by
  simp [Neighbours.join]

/-- An edge is entered behind the others, at both of its ends. -/
theorem getD_join {t : Array Neighbours} {e : Edge} (hs : e.source < t.size)
    (ht : e.target < t.size) (u : Nat) :
    (Neighbours.join t e).getD u {} =
      { before := (t.getD u {}).before ++ if e.target = u then [e.source] else []
        after := (t.getD u {}).after ++ if e.source = u then [e.target] else [] } := by
  obtain ⟨s, r⟩ := e
  simp only [Neighbours.join, Array.getD_eq_getD_getElem?, Array.getElem?_modify]
  cases hu : t[u]? with
  | none =>
    rw [Array.getElem?_eq_none_iff] at hu
    dsimp only at hs ht
    have hsu : s ≠ u := by omega
    have hru : r ≠ u := by omega
    simp [hsu, hru]
  | some n => by_cases hsu : s = u <;> by_cases hru : r = u <;> simp [hsu, hru]

/-- The table filled from some edges lists their ends, in the order of the edges. -/
theorem getD_foldl_join {es : List Edge} {t : Array Neighbours}
    (h : ∀ e ∈ es, e.source < t.size ∧ e.target < t.size) (u : Nat) :
    (es.foldl Neighbours.join t).getD u {} =
      { before := (t.getD u {}).before ++ (es.filter (·.target = u)).map (·.source)
        after := (t.getD u {}).after ++ (es.filter (·.source = u)).map (·.target) } := by
  induction es generalizing t with
  | nil => simp
  | cons e es ih =>
    have he := h e (by simp)
    have hes : ∀ d ∈ es, d.source < (Neighbours.join t e).size ∧
        d.target < (Neighbours.join t e).size := by
      intro d hd
      rw [size_join]
      exact h d (List.mem_cons_of_mem _ hd)
    rw [List.foldl_cons, ih hes, getD_join he.1 he.2]
    by_cases hs : e.source = u <;> by_cases hr : e.target = u <;> simp [hs, hr]

theorem mem_targets {es : List Edge} {u v : Nat} :
    v ∈ (es.filter (·.source = u)).map (·.target) ↔ ⟨u, v⟩ ∈ es := by
  simp only [List.mem_map, List.mem_filter, decide_eq_true_eq]
  constructor
  · rintro ⟨e, ⟨he, rfl⟩, rfl⟩
    exact he
  · intro he
    exact ⟨⟨u, v⟩, ⟨he, rfl⟩, rfl⟩

theorem mem_sources {es : List Edge} {u v : Nat} :
    u ∈ (es.filter (·.target = v)).map (·.source) ↔ ⟨u, v⟩ ∈ es := by
  simp only [List.mem_map, List.mem_filter, decide_eq_true_eq]
  constructor
  · rintro ⟨e, ⟨he, rfl⟩, rfl⟩
    exact he
  · intro he
    exact ⟨⟨u, v⟩, ⟨he, rfl⟩, rfl⟩

/-! ### Coherent graphs -/

/-- The neighbours of a node are the other ends of its edges, in their order. -/
theorem neighbours_eq_of_table {g : FlowGraph}
    (htable : g.neighbours = g.edges.foldl Neighbours.join (Array.replicate g.size {}))
    (hedges : ∀ u v, ⟨u, v⟩ ∈ g.edges → u < g.size ∧ v < g.size) (u : Nat) :
    g.successors u = (g.edges.toList.filter (·.source = u)).map (·.target) ∧
      g.predecessors u = (g.edges.toList.filter (·.target = u)).map (·.source) := by
  rw [← Array.foldl_toList] at htable
  have hall : ∀ e ∈ g.edges.toList, e.source < (Array.replicate g.size ({} : Neighbours)).size ∧
      e.target < (Array.replicate g.size ({} : Neighbours)).size := by
    intro e he
    rw [Array.size_replicate]
    exact hedges e.source e.target (by simpa using he)
  have hempty : (Array.replicate g.size ({} : Neighbours)).getD u {} = {} := by
    simp only [Array.getD_eq_getD_getElem?, Array.getElem?_replicate]
    split <;> rfl
  rw [successors, predecessors, htable, getD_foldl_join hall, hempty]
  exact ⟨rfl, rfl⟩

/-- A graph is coherent if its table was filled from its edges, and these and its boundary are
inside of it. -/
theorem coherent_of_table {g : FlowGraph}
    (htable : g.neighbours = g.edges.foldl Neighbours.join (Array.replicate g.size {}))
    (hedges : ∀ u v, ⟨u, v⟩ ∈ g.edges → u < g.size ∧ v < g.size)
    (hroot : g.rootBoundary.start < g.size ∧ g.rootBoundary.stop < g.size) : g.Coherent := by
  refine ⟨fun u v => ?_, fun u v => ?_, hedges, hroot.1, hroot.2⟩
  · rw [(neighbours_eq_of_table htable hedges u).1, mem_targets, Array.mem_toList_iff]
  · rw [(neighbours_eq_of_table htable hedges v).2, mem_sources, Array.mem_toList_iff]

/-- Settling makes a graph coherent whose edges and boundaries are inside of it. -/
theorem coherent_settle {g : FlowGraph}
    (hedges : ∀ u v, ⟨u, v⟩ ∈ g.edges → u < g.size ∧ v < g.size)
    (hbounds : ∀ f b, g.boundary? f = some b → b.start < g.size ∧ b.stop < g.size)
    (hroot : g.rootBoundary.start < g.size ∧ g.rootBoundary.stop < g.size) :
    g.settle.Coherent := by
  refine coherent_of_table rfl (fun u v huv => ?_) ?_
  · rw [size_settle]
    rcases mem_edges_settle.1 huv with h | h
    · exact hedges u v h
    · obtain ⟨-, n, b, hn, -, hb, rfl⟩ := mem_dangling h
      refine ⟨?_, (hbounds _ b hb).2⟩
      rw [Array.getElem?_eq_some_iff] at hn
      exact hn.1
  · rw [rootBoundary_settle, size_settle]
    exact hroot

end ParLoop.FlowGraph
