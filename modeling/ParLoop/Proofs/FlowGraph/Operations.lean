import ParLoop.FlowGraph.Basic

/-!
# The operations on graphs

What each operation does to the parts of a graph. Nodes keep their numbers whatever is added
(`Extends`), the next node gets the number of nodes so far (`getElem?_addNode`), and a procedure has
a boundary once it is added (`boundary?_addProcedure`). Settling adds an edge for every node without
a way out, and nothing the second time (`settle_settle`).
-/

namespace ParLoop

theorem Node.instr?_eq_some {v : Node} {i : Instr} : v.instr? = some i ↔ v.kind = .instr i := by
  unfold instr?
  split
  case h_1 j hkind => rw [hkind, Option.some_inj, NodeKind.instr.injEq]
  case h_2 hkind =>
    constructor
    · intro h
      cases h
    · intro h
      exact absurd h (hkind i)

/-- Whether control passes from a body into another one at a node. -/
def Node.crosses (n : Node) : Bool := n.kind matches .enter _ _ | .leave _ _

theorem Node.instr?_of_crosses {n : Node} (h : n.crosses = true) : n.instr? = none := by
  obtain ⟨home, kind⟩ := n
  cases kind with
  | instr _ => cases h
  | _ => rfl

namespace FlowGraph

/-! ### Nodes -/

/-- The nodes of a graph are nodes of another one. -/
def Extends (g g' : FlowGraph) : Prop :=
  ∀ (n : Nat) (v : Node), g.nodes[n]? = some v → g'.nodes[n]? = some v

variable {g g' g'' : FlowGraph}

theorem Extends.refl (g : FlowGraph) : g.Extends g := fun _ _ h => h

theorem Extends.trans (h : g.Extends g') (h' : g'.Extends g'') : g.Extends g'' :=
  fun n v hv => h' n v (h n v hv)

theorem lt_size_of_getElem? {n : Nat} {v : Node} (h : g.nodes[n]? = some v) : n < g.size :=
  (Array.getElem?_eq_some_iff.1 h).1

theorem Extends.size_le (h : g.Extends g') : g.size ≤ g'.size := by
  refine Nat.not_lt.1 fun hlast => ?_
  exact absurd (lt_size_of_getElem? (h g'.size _ (Array.getElem?_eq_getElem hlast)))
    (Nat.lt_irrefl _)

theorem getElem?_addNode (g : FlowGraph) (procedure : String) (kind : NodeKind) (n : Nat) :
    (g.addNode procedure kind).nodes[n]? =
      if n = g.size then some ⟨procedure, kind⟩ else g.nodes[n]? :=
  Array.getElem?_push

@[simp] theorem size_addNode (g : FlowGraph) (procedure : String) (kind : NodeKind) :
    (g.addNode procedure kind).size = g.size + 1 :=
  Array.size_push _

theorem extends_addNode (g : FlowGraph) (procedure : String) (kind : NodeKind) :
    g.Extends (g.addNode procedure kind) := by
  intro n v hv
  rw [getElem?_addNode, if_neg (Nat.ne_of_lt (lt_size_of_getElem? hv)), hv]

theorem instr?_eq_some {k : Nat} {i : Instr} :
    g.instr? k = some i ↔ ∃ v, g.nodes[k]? = some v ∧ v.kind = .instr i := by
  simp only [instr?, Option.bind_eq_some_iff, Node.instr?_eq_some]

/-- Instructions are listed with the numbers of their nodes. -/
theorem mem_instrNodes {k : Nat} {i : Instr} : (k, i) ∈ g.instrNodes ↔ g.instr? k = some i := by
  simp only [instrNodes, instr?, List.mem_filterMap, Option.map_eq_some_iff, Prod.mk.injEq,
    Option.bind_eq_some_iff, List.mem_zipIdx_iff_getElem?, Prod.exists, Array.getElem?_toList]
  constructor
  · rintro ⟨n, m, hn, j, hj, rfl, rfl⟩
    exact ⟨n, hn, hj⟩
  · rintro ⟨n, hn, hi⟩
    exact ⟨n, k, hn, i, hi, rfl, rfl⟩

/-! ### Procedures -/

theorem extends_addProcedure (g : FlowGraph) (x : String) : g.Extends (g.addProcedure x) := by
  unfold addProcedure
  split
  · exact .refl g
  · exact (extends_addNode g x .start).trans (extends_addNode _ x .stop)

/-- A procedure is added with a start and a stop of its own. -/
theorem addProcedure_cases (g : FlowGraph) (x : String) :
    (∃ b, g.boundary? x = some b ∧ g.addProcedure x = g) ∨
      g.boundary? x = none ∧ g.addProcedure x =
        { (g.addNode x .start).addNode x .stop with
          boundaries := g.boundaries.insert x ⟨g.size, g.size + 1⟩ } := by
  unfold addProcedure
  cases hb : g.boundary? x with
  | some b =>
    refine Or.inl ⟨b, rfl, if_pos ?_⟩
    exact Option.isSome_iff_exists.2 ⟨b, hb⟩
  | none =>
    refine Or.inr ⟨rfl, if_neg ?_⟩
    rw [NameMap.contains, show g.boundaries.find? x = none from hb]
    exact Bool.false_ne_true

theorem boundary?_addProcedure (g : FlowGraph) (x y : String) :
    (g.addProcedure x).boundary? y =
      if x = y then some ((g.boundary? x).getD ⟨g.size, g.size + 1⟩) else g.boundary? y := by
  rcases addProcedure_cases g x with ⟨b, hb, h⟩ | ⟨hb, h⟩
  · rw [h]
    split
    case isTrue hxy => rw [← hxy, hb, Option.getD_some]
    case isFalse => rfl
  · rw [h, hb]
    exact NameMap.find?_insert ..

theorem edges_addProcedure (g : FlowGraph) (procedure : String) :
    (g.addProcedure procedure).edges = g.edges := by
  unfold FlowGraph.addProcedure
  split <;> rfl

/-! ### Positions -/

theorem mapPosition_frame (g : FlowGraph) (x : String) (k node : Nat) :
    (g.mapPosition x k node).root = g.root ∧ (g.mapPosition x k node).nodes = g.nodes ∧
      (g.mapPosition x k node).boundaries = g.boundaries := by
  unfold mapPosition
  split <;> exact ⟨rfl, rfl, rfl⟩

theorem edges_mapPosition (g : FlowGraph) (procedure : String) (index node : Nat) :
    (g.mapPosition procedure index node).edges = g.edges := by
  unfold FlowGraph.mapPosition
  split <;> rfl

theorem edges_placeInstr (g : FlowGraph) (procedure : String) (index : Nat) (i : Instr) :
    (g.placeInstr procedure index i).edges = g.edges := by
  unfold FlowGraph.placeInstr
  split
  · rfl
  · rw [edges_mapPosition]
    rfl

/-! ### Edges -/

@[simp] theorem mem_edges_addEdge {g : FlowGraph} {u v : Nat} {e : Edge} :
    e ∈ (g.addEdge u v).edges ↔ e ∈ g.edges ∨ e = ⟨u, v⟩ := by
  unfold addEdge
  split
  case isTrue h =>
    constructor
    · exact Or.inl
    · rintro (he | rfl)
      · exact he
      · exact h
  case isFalse => simp

@[simp] theorem nodes_addEdge (g : FlowGraph) (u v : Nat) : (g.addEdge u v).nodes = g.nodes := by
  unfold addEdge
  split <;> rfl

@[simp] theorem size_addEdge (g : FlowGraph) (u v : Nat) : (g.addEdge u v).size = g.size := by
  simp [size]

@[simp] theorem root_addEdge (g : FlowGraph) (u v : Nat) : (g.addEdge u v).root = g.root := by
  unfold addEdge
  split <;> rfl

@[simp] theorem boundaries_addEdge (g : FlowGraph) (u v : Nat) :
    (g.addEdge u v).boundaries = g.boundaries := by
  unfold addEdge
  split <;> rfl

@[simp] theorem positions_addEdge (g : FlowGraph) (u v : Nat) :
    (g.addEdge u v).positions = g.positions := by
  unfold addEdge
  split <;> rfl

/-- A graph with some more edges. -/
def addEdges (g : FlowGraph) (es : List Edge) : FlowGraph :=
  es.foldl (fun g e => g.addEdge e.source e.target) g

theorem addEdges_cons (g : FlowGraph) (e : Edge) (es : List Edge) :
    g.addEdges (e :: es) = (g.addEdge e.source e.target).addEdges es := rfl

theorem mem_edges_addEdges {g : FlowGraph} {es : List Edge} {e : Edge} :
    e ∈ (g.addEdges es).edges ↔ e ∈ g.edges ∨ e ∈ es := by
  induction es generalizing g with
  | nil => simp [addEdges]
  | cons d es ih =>
    rw [addEdges_cons, ih, mem_edges_addEdge, List.mem_cons, or_assoc]

/-- Edges change nothing else. -/
theorem addEdges_frame (g : FlowGraph) (es : List Edge) :
    (g.addEdges es).nodes = g.nodes ∧ (g.addEdges es).root = g.root ∧
      (g.addEdges es).boundaries = g.boundaries ∧ (g.addEdges es).positions = g.positions := by
  induction es generalizing g with
  | nil => simp [addEdges]
  | cons e es ih =>
    rw [addEdges_cons]
    simpa using ih (g.addEdge e.source e.target)

/-! ### Settling -/

@[simp] theorem nodes_settle (g : FlowGraph) : g.settle.nodes = g.nodes :=
  (addEdges_frame g g.dangling).1

@[simp] theorem root_settle (g : FlowGraph) : g.settle.root = g.root :=
  (addEdges_frame g g.dangling).2.1

@[simp] theorem boundaries_settle (g : FlowGraph) : g.settle.boundaries = g.boundaries :=
  (addEdges_frame g g.dangling).2.2.1

@[simp] theorem positions_settle (g : FlowGraph) : g.settle.positions = g.positions :=
  (addEdges_frame g g.dangling).2.2.2

@[simp] theorem size_settle (g : FlowGraph) : g.settle.size = g.size := by
  simp [size]

theorem mem_edges_settle {g : FlowGraph} {e : Edge} :
    e ∈ g.settle.edges ↔ e ∈ g.edges ∨ e ∈ g.dangling := mem_edges_addEdges

theorem rootBoundary_settle (g : FlowGraph) : g.settle.rootBoundary = g.rootBoundary := by
  simp [rootBoundary, boundary?]

/-- A dangling node has no edge and is no stop; it is sent to the stop of its procedure. -/
theorem mem_dangling {g : FlowGraph} {e : Edge} (h : e ∈ g.dangling) :
    (∀ v, ⟨e.source, v⟩ ∉ g.edges) ∧ ∃ n b, g.nodes[e.source]? = some n ∧ n.isStop = false ∧
      g.boundary? n.procedure = some b ∧ e.target = b.stop := by
  obtain ⟨⟨n, k⟩, hn, he⟩ := List.mem_filterMap.1 h
  dsimp only at he
  split at he
  case isTrue => cases he
  case isFalse hfree =>
    obtain ⟨b, hb, rfl⟩ := Option.map_eq_some_iff.1 he
    simp only [Bool.or_eq_true, not_or, Bool.not_eq_true, Array.any_eq_false'] at hfree
    refine ⟨fun v hv => ?_, n, b, ?_, hfree.1, hb, rfl⟩
    · simpa using hfree.2 _ hv
    · have := List.mem_zipIdx_iff_getElem?.1 hn
      simpa using this

/-- A node without a way out that is no stop is sent to the stop of its procedure. -/
theorem mem_dangling_of_free {g : FlowGraph} {n : Nat} {v : Node} {b : Boundary}
    (hv : g.nodes[n]? = some v) (hstop : v.isStop = false) (hfree : ∀ b, ⟨n, b⟩ ∉ g.edges)
    (hb : g.boundary? v.procedure = some b) : ⟨n, b.stop⟩ ∈ g.dangling := by
  have hmem : (v, n) ∈ g.nodes.toList.zipIdx := by
    rw [List.mem_zipIdx_iff_getElem?, Array.getElem?_toList]
    exact hv
  refine List.mem_filterMap.2 ⟨(v, n), hmem, ?_⟩
  have hany : g.edges.any (fun e => e.source == n) = false := by
    rw [Array.any_eq_false']
    intro e he hsource
    exact hfree e.target ((beq_iff_eq.1 hsource) ▸ he)
  dsimp only
  rw [hstop, hany, Bool.or_false, if_neg Bool.false_ne_true, hb]
  rfl

/-- Every node but a stop has an edge that leads on, if its procedure has a boundary. -/
def HasWaysOut (g : FlowGraph) : Prop :=
  ∀ k n b, g.nodes[k]? = some n → n.isStop = false → g.boundary? n.procedure = some b →
    ∃ v, ⟨k, v⟩ ∈ g.edges

theorem hasWaysOut_settle (g : FlowGraph) : g.settle.HasWaysOut := by
  intro k n b hn hstop hb
  rw [nodes_settle] at hn
  rw [boundary?, boundaries_settle] at hb
  by_cases hfree : ∃ v, ⟨k, v⟩ ∈ g.edges
  · obtain ⟨v, hv⟩ := hfree
    exact ⟨v, mem_edges_settle.2 (Or.inl hv)⟩
  · exact ⟨b.stop, mem_edges_settle.2
      (Or.inr (mem_dangling_of_free hn hstop (not_exists.1 hfree) hb))⟩

theorem dangling_eq_nil (h : g.HasWaysOut) : g.dangling = [] := by
  refine List.eq_nil_iff_forall_not_mem.2 fun e he => ?_
  obtain ⟨hfree, n, b, hn, hstop, hb, -⟩ := mem_dangling he
  obtain ⟨v, hv⟩ := h e.source n b hn hstop hb
  exact hfree v hv

/-- **A settled graph is not changed by settling it again.** -/
theorem settle_settle (g : FlowGraph) : g.settle.settle = g.settle := by
  conv =>
    lhs
    rw [settle, dangling_eq_nil (hasWaysOut_settle g)]
  rfl

end FlowGraph

end ParLoop
