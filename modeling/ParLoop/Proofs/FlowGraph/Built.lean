import Mathlib.Data.List.Nodup
import Mathlib.Logic.Relation
import ParLoop.Proofs.FlowGraph.Neighbours

/-!
# Graphs under any operations

A graph may be grown, settled and grown again in any order (`Grows`). Every operation keeps what was
there before it: nodes with their numbers, boundaries and positions (`KeptIn`). Whatever the order,
the redundant parts of a graph agree (`Sound`): an edge is listed once, a recorded boundary is a
start and a stop of its procedure, and as long as a graph counts as settled, its table of neighbours
is that of its edges and no node is left without a way out. If its edges join existing nodes, a
settled graph is then coherent (`Sound.coherent`) and lists every neighbour once
(`Sound.nodup_neighbours`); these are the graphs to which edges were only added between existing
nodes (`regular_of_grows`).
-/

namespace ParLoop.FlowGraph

/-- An edge joins nodes of a graph. -/
def Joins (g : FlowGraph) (e : Edge) : Prop := e.source < g.size ∧ e.target < g.size

/-- One operation on a graph, with the edges that may be added to it. -/
inductive Grows (fits : FlowGraph → Edge → Prop) : FlowGraph → FlowGraph → Prop where
  | addProcedure (g : FlowGraph) (procedure : String) : Grows fits g (g.addProcedure procedure)
  | addNode (g : FlowGraph) (procedure : String) (kind : NodeKind) :
      Grows fits g (g.addNode procedure kind)
  | placeInstr (g : FlowGraph) (procedure : String) (index : Nat) (i : Instr) :
      Grows fits g (g.placeInstr procedure index i)
  | mapPosition (g : FlowGraph) (procedure : String) (index node : Nat) :
      Grows fits g (g.mapPosition procedure index node)
  | addEdge {g : FlowGraph} {source target : Nat} (h : fits g ⟨source, target⟩) :
      Grows fits g (g.addEdge source target)
  | settle (g : FlowGraph) : Grows fits g g.settle

/-- The graphs that the operations on graphs give, in any order and with any edges. -/
def Built (g : FlowGraph) : Prop :=
  ∃ root, Relation.ReflTransGen (Grows fun _ _ => True) (ofRoot root) g

theorem built_ofRoot (root : String) : (ofRoot root).Built := ⟨root, .refl⟩

variable {g g' g'' : FlowGraph} {fits : FlowGraph → Edge → Prop}

theorem Built.grows (h : g.Built) (hstep : Grows (fun _ _ => True) g g') : g'.Built :=
  h.imp fun _ hroot => hroot.tail hstep

/-! ### What is kept -/

/-- The root, the nodes of a graph, its boundaries and its positions are the same in another one,
which may have more of them. -/
structure KeptIn (g g' : FlowGraph) : Prop where
  root_eq : g'.root = g.root
  node : g.Extends g'
  boundary : ∀ p b, g.boundary? p = some b → g'.boundary? p = some b
  position : ∀ p index k, g.position? p index = some k → g'.position? p index = some k

theorem KeptIn.refl (g : FlowGraph) : g.KeptIn g :=
  ⟨rfl, .refl g, fun _ _ h => h, fun _ _ _ h => h⟩

theorem KeptIn.trans (h : g.KeptIn g') (h' : g'.KeptIn g'') : g.KeptIn g'' where
  root_eq := h'.root_eq.trans h.root_eq
  node := h.node.trans h'.node
  boundary p b hb := h'.boundary p b (h.boundary p b hb)
  position p index k hk := h'.position p index k (h.position p index k hk)

theorem keptIn_addNode (g : FlowGraph) (procedure : String) (kind : NodeKind) :
    g.KeptIn (g.addNode procedure kind) :=
  ⟨rfl, extends_addNode g procedure kind, fun _ _ h => h, fun _ _ _ h => h⟩

theorem keptIn_addProcedure (g : FlowGraph) (procedure : String) :
    g.KeptIn (g.addProcedure procedure) := by
  obtain ⟨-, -, heq⟩ | ⟨hnone, heq⟩ := addProcedure_cases g procedure
  · rw [heq]
    exact .refl g
  · refine ⟨by rw [heq]; rfl, extends_addProcedure g procedure, fun p b hb => ?_,
      fun p index k hk => by rw [heq]; exact hk⟩
    rw [boundary?_addProcedure, if_neg, hb]
    rintro rfl
    cases hnone.symm.trans hb

/-- A new position comes behind the others, so that it is found only if they do not have it. -/
theorem keptIn_mapPosition (g : FlowGraph) (procedure : String) (index node : Nat) :
    g.KeptIn (g.mapPosition procedure index node) := by
  unfold mapPosition
  split
  case h_1 => exact .refl g
  case h_2 =>
    refine ⟨rfl, .refl g, fun _ _ h => h, fun p i k hk => ?_⟩
    show (g.positions ++ [((procedure, index), node)]).lookup (p, i) = some k
    rw [List.lookup_append, show g.positions.lookup (p, i) = some k from hk]
    rfl

theorem keptIn_placeInstr (g : FlowGraph) (procedure : String) (index : Nat) (i : Instr) :
    g.KeptIn (g.placeInstr procedure index i) := by
  unfold placeInstr
  split
  case h_1 => exact .refl g
  case h_2 =>
    have hnode := keptIn_addNode g procedure (.instr i)
    exact hnode.trans (keptIn_mapPosition _ procedure index g.size)

/-- **Every operation keeps what was there.** -/
theorem Grows.keptIn (h : Grows fits g g') : g.KeptIn g' := by
  cases h with
  | addProcedure procedure => exact keptIn_addProcedure g procedure
  | addNode procedure kind => exact keptIn_addNode g procedure kind
  | placeInstr procedure index i => exact keptIn_placeInstr g procedure index i
  | mapPosition procedure index node => exact keptIn_mapPosition g procedure index node
  | addEdge => exact ⟨by simp, by simp [Extends], by simp [boundary?], by simp [position?]⟩
  | settle => exact ⟨by simp, by simp [Extends], by simp [boundary?], by simp [position?]⟩

theorem keptIn_of_grows (h : Relation.ReflTransGen (Grows fits) g g') : g.KeptIn g' := by
  induction h with
  | refl => exact .refl g
  | tail _ hstep ih => exact ih.trans hstep.keptIn

/-! ### Sound graphs -/

/-- The nodes of a boundary are a start and a stop of a procedure. -/
def IsBoundary (g : FlowGraph) (procedure : String) (b : Boundary) : Prop :=
  g.nodes[b.start]? = some ⟨procedure, .start⟩ ∧ g.nodes[b.stop]? = some ⟨procedure, .stop⟩

theorem IsBoundary.of_extends {p : String} {b : Boundary} (h : g.IsBoundary p b)
    (hg : g.Extends g') : g'.IsBoundary p b :=
  ⟨hg _ _ h.1, hg _ _ h.2⟩

/-- The root has a boundary, every boundary is a start and a stop of its procedure, no edge is
listed twice, and as long as the graph is settled, the table of neighbours is that of the edges and
there are ways out. -/
structure Sound (g : FlowGraph) : Prop where
  root : ∃ b, g.boundary? g.root = some b
  boundary : ∀ p b, g.boundary? p = some b → g.IsBoundary p b
  nodup_edges : g.edges.toList.Nodup
  table : g.settled = true →
    g.neighbours = g.edges.foldl Neighbours.join (Array.replicate g.size {})
  out : g.settled = true → g.HasWaysOut

theorem Sound.root_of_keptIn (h : g.Sound) (hkept : g.KeptIn g') :
    ∃ b, g'.boundary? g'.root = some b := by
  rw [hkept.root_eq]
  exact h.root.imp fun b hb => hkept.boundary _ b hb

theorem Sound.addNode (h : g.Sound) (procedure : String) (kind : NodeKind) :
    (g.addNode procedure kind).Sound where
  root := h.root
  boundary p b hb := (h.boundary p b hb).of_extends (extends_addNode g procedure kind)
  nodup_edges := h.nodup_edges
  table hsettled := by cases hsettled
  out hsettled := by cases hsettled

/-- The boundary of a new procedure is made of the two nodes that are added with it. -/
theorem isBoundary_addProcedure (h : ∀ p b, g.boundary? p = some b → g.IsBoundary p b)
    (procedure p : String) (b : Boundary) (hb : (g.addProcedure procedure).boundary? p = some b) :
    (g.addProcedure procedure).IsBoundary p b := by
  have hold : g.boundary? p = some b → (g.addProcedure procedure).IsBoundary p b :=
    fun hb => (h p b hb).of_extends (extends_addProcedure g procedure)
  rw [boundary?_addProcedure] at hb
  split at hb
  case isFalse => exact hold hb
  case isTrue hp =>
    subst hp
    obtain ⟨b', hb', -⟩ | ⟨hnone, heq⟩ := addProcedure_cases g procedure
    · rw [hb', Option.getD_some] at hb
      exact hold (hb'.trans hb)
    · rw [hnone, Option.getD_none, Option.some_inj] at hb
      subst hb
      rw [heq]
      simp [IsBoundary, getElem?_addNode]

theorem Sound.addProcedure (h : g.Sound) (procedure : String) :
    (g.addProcedure procedure).Sound := by
  obtain ⟨-, -, heq⟩ | ⟨-, heq⟩ := addProcedure_cases g procedure
  · rw [heq]
    exact h
  · have hunsettled : (g.addProcedure procedure).settled ≠ true := by
      rw [heq]
      exact Bool.false_ne_true
    have hnodup : (g.addProcedure procedure).edges.toList.Nodup := by
      rw [edges_addProcedure]
      exact h.nodup_edges
    exact ⟨h.root_of_keptIn (keptIn_addProcedure g procedure),
      isBoundary_addProcedure h.boundary procedure, hnodup,
      fun hsettled => absurd hsettled hunsettled, fun hsettled => absurd hsettled hunsettled⟩

theorem Sound.mapPosition (h : g.Sound) (procedure : String) (index node : Nat) :
    (g.mapPosition procedure index node).Sound := by
  unfold FlowGraph.mapPosition
  split
  · exact h
  · exact ⟨h.root, h.boundary, h.nodup_edges, h.table, h.out⟩

theorem Sound.placeInstr (h : g.Sound) (procedure : String) (index : Nat) (i : Instr) :
    (g.placeInstr procedure index i).Sound := by
  unfold FlowGraph.placeInstr
  split
  case h_1 => exact h
  case h_2 => exact (h.addNode procedure (.instr i)).mapPosition procedure index g.size

theorem nodup_edges_addEdge (h : g.edges.toList.Nodup) (u v : Nat) :
    (g.addEdge u v).edges.toList.Nodup := by
  unfold FlowGraph.addEdge
  split
  case isTrue => exact h
  case isFalse hnew =>
    rw [Array.toList_push, List.nodup_append_comm]
    exact List.nodup_cons.2 ⟨by simpa using hnew, h⟩

theorem nodup_edges_addEdges (h : g.edges.toList.Nodup) (es : List Edge) :
    (g.addEdges es).edges.toList.Nodup := by
  induction es generalizing g with
  | nil => exact h
  | cons e es ih =>
    rw [addEdges_cons]
    exact ih (nodup_edges_addEdge h e.source e.target)

/-- A new edge makes the graph unsettled. -/
theorem Sound.addEdge (h : g.Sound) (u v : Nat) : (g.addEdge u v).Sound := by
  have hnodup := nodup_edges_addEdge h.nodup_edges u v
  unfold FlowGraph.addEdge at hnodup ⊢
  split
  case isTrue => exact h
  case isFalse hnew =>
    rw [if_neg hnew] at hnodup
    exact ⟨h.root, h.boundary, hnodup, fun hsettled => (by cases hsettled),
      fun hsettled => (by cases hsettled)⟩

theorem Sound.settle (h : g.Sound) : g.settle.Sound := by
  refine ⟨?_, fun p b hb => ?_, nodup_edges_addEdges h.nodup_edges g.dangling, fun _ => rfl,
    fun _ => hasWaysOut_settle g⟩
  · rw [boundary?, boundaries_settle, root_settle]
    exact h.root
  · rw [boundary?, boundaries_settle] at hb
    exact (h.boundary p b hb).of_extends (by simp [Extends])

theorem sound_ofRoot (root : String) : (FlowGraph.ofRoot root).Sound where
  root := ⟨_, (boundary?_addProcedure ..).trans (if_pos rfl)⟩
  boundary := isBoundary_addProcedure (fun p b hb => by cases hb) root
  nodup_edges := List.nodup_nil
  table hsettled := by cases hsettled
  out hsettled := by cases hsettled

/-- **Every operation keeps a graph sound.** -/
theorem Grows.sound (h : Grows fits g g') (hg : g.Sound) : g'.Sound := by
  cases h with
  | addProcedure procedure => exact hg.addProcedure procedure
  | addNode procedure kind => exact hg.addNode procedure kind
  | placeInstr procedure index i => exact hg.placeInstr procedure index i
  | mapPosition procedure index node => exact hg.mapPosition procedure index node
  | addEdge => exact hg.addEdge _ _
  | settle => exact hg.settle

/-- **Whatever the operations, a graph is sound.** -/
theorem sound_of_grows {root : String} (h : Relation.ReflTransGen (Grows fits) (ofRoot root) g) :
    g.Sound := by
  induction h with
  | refl => exact sound_ofRoot root
  | tail _ hstep ih => exact hstep.sound ih

theorem Built.sound (h : g.Built) : g.Sound := by
  obtain ⟨root, hroot⟩ := h
  exact sound_of_grows hroot

/-! ### Neighbours -/

/-- **A settled graph is coherent** if its edges join existing nodes. -/
theorem Sound.coherent (h : g.Sound) (hsettled : g.settled = true)
    (hedges : ∀ e ∈ g.edges, g.Joins e) : g.Coherent := by
  refine coherent_of_table (h.table hsettled) (fun u v huv => hedges ⟨u, v⟩ huv) ?_
  obtain ⟨b, hb⟩ := h.root
  have hroot : g.rootBoundary = b := by rw [rootBoundary, hb, Option.getD_some]
  rw [hroot]
  exact ⟨lt_size_of_getElem? (h.boundary _ b hb).1, lt_size_of_getElem? (h.boundary _ b hb).2⟩

/-- The neighbours of a node are the other ends of its edges, in their order. -/
theorem Sound.neighbours_eq (h : g.Sound) (hsettled : g.settled = true)
    (hedges : ∀ e ∈ g.edges, g.Joins e) (u : Nat) :
    g.successors u = (g.edges.toList.filter (·.source = u)).map (·.target) ∧
      g.predecessors u = (g.edges.toList.filter (·.target = u)).map (·.source) :=
  neighbours_eq_of_table (h.table hsettled) (fun u v huv => hedges ⟨u, v⟩ huv) u

/-- Edges that are listed once lead from a node to each other node once, and likewise back. -/
theorem nodup_ends {es : List Edge} (h : es.Nodup) (u : Nat) :
    ((es.filter (·.source = u)).map (·.target)).Nodup ∧
      ((es.filter (·.target = u)).map (·.source)).Nodup := by
  constructor <;> refine List.Nodup.map_on ?_ (h.filter _)
  · rintro ⟨s, r⟩ he ⟨s', r'⟩ he' heq
    simp only [List.mem_filter, decide_eq_true_eq] at he he'
    rw [he.2, he'.2, show r = r' from heq]
  · rintro ⟨s, r⟩ he ⟨s', r'⟩ he' heq
    simp only [List.mem_filter, decide_eq_true_eq] at he he'
    rw [he.2, he'.2, show s = s' from heq]

/-- **A settled graph lists every neighbour once** if its edges join existing nodes. -/
theorem Sound.nodup_neighbours (h : g.Sound) (hsettled : g.settled = true)
    (hedges : ∀ e ∈ g.edges, g.Joins e) (u : Nat) :
    (g.successors u).Nodup ∧ (g.predecessors u).Nodup := by
  obtain ⟨hafter, hbefore⟩ := h.neighbours_eq hsettled hedges u
  rw [hafter, hbefore]
  exact nodup_ends h.nodup_edges u

/-! ### Edges between existing nodes -/

theorem Joins.of_extends {e : Edge} (h : g.Joins e) (hg : g.Extends g') : g'.Joins e := by
  have hsize := hg.size_le
  exact ⟨Nat.lt_of_lt_of_le h.1 hsize, Nat.lt_of_lt_of_le h.2 hsize⟩

/-- **Edges that are added between existing nodes stay between existing nodes.** -/
theorem Grows.joins (h : Grows Joins g g') (hg : g.Sound) (hedges : ∀ e ∈ g.edges, g.Joins e) :
    ∀ e ∈ g'.edges, g'.Joins e := by
  have hold : ∀ e ∈ g.edges, g'.Joins e := fun e he => (hedges e he).of_extends h.keptIn.node
  cases h with
  | addProcedure procedure => rwa [edges_addProcedure]
  | addNode procedure kind => exact hold
  | placeInstr procedure index i => rwa [edges_placeInstr]
  | mapPosition procedure index node => rwa [edges_mapPosition]
  | @addEdge source target hnew =>
    intro e he
    obtain he | rfl := mem_edges_addEdge.1 he
    · exact hold e he
    · exact hnew.of_extends (by simp [Extends])
  | settle =>
    intro e he
    obtain he | he := mem_edges_settle.1 he
    · exact hold e he
    · obtain ⟨-, n, b, hn, -, hb, htarget⟩ := mem_dangling he
      have hjoins : g.Joins e :=
        ⟨lt_size_of_getElem? hn, htarget ▸ lt_size_of_getElem? (hg.boundary _ b hb).2⟩
      exact hjoins.of_extends (by simp [Extends])

theorem joins_of_grows {root : String} (h : Relation.ReflTransGen (Grows Joins) (ofRoot root) g) :
    ∀ e ∈ g.edges, g.Joins e := by
  induction h with
  | refl => exact fun e he => absurd he (Array.not_mem_empty e)
  | tail hbefore hstep ih => exact hstep.joins (sound_of_grows hbefore) ih

/-- The redundant parts of a graph agree with each other. -/
structure Regular (g : FlowGraph) : Prop where
  nodup_edges : g.edges.toList.Nodup
  boundary : ∀ p b, g.boundary? p = some b → g.IsBoundary p b
  /-- The neighbours of a node are the other ends of its edges, in their order. -/
  neighbours : g.settled = true → ∀ k,
    g.successors k = (g.edges.toList.filter (·.source = k)).map (·.target) ∧
      g.predecessors k = (g.edges.toList.filter (·.target = k)).map (·.source)
  out : g.settled = true → ∀ k n b, g.nodes[k]? = some n → n.isStop = false →
    g.boundary? n.procedure = some b → g.successors k ≠ []

theorem Sound.regular (h : g.Sound) (hedges : ∀ e ∈ g.edges, g.Joins e) : g.Regular := by
  refine ⟨h.nodup_edges, h.boundary, fun hsettled => h.neighbours_eq hsettled hedges,
    fun hsettled k n b hn hstop hb => ?_⟩
  obtain ⟨v, hv⟩ := h.out hsettled k n b hn hstop hb
  rw [(h.neighbours_eq hsettled hedges k).1]
  exact List.ne_nil_of_mem (mem_targets.2 (Array.mem_toList_iff.2 hv))

/-- **Whatever the operations, the parts of a graph agree, and later operations keep its nodes, its
boundaries and its positions.** The next node gets the number of nodes so far, instructions are
listed with the numbers of their nodes, a procedure that is added has a boundary, and settling a
second time changes nothing. -/
theorem regular_of_grows {root : String} {g : FlowGraph}
    (h : Relation.ReflTransGen (Grows Joins) (ofRoot root) g) :
    g.Regular ∧ (∀ g', Relation.ReflTransGen (Grows Joins) g g' → g.KeptIn g') ∧
      (∀ procedure kind, (g.addNode procedure kind).nodes[g.size]? = some ⟨procedure, kind⟩) ∧
      (∀ k i, (k, i) ∈ g.instrNodes ↔ g.instr? k = some i) ∧
      (∀ p, ∃ b, (g.addProcedure p).boundary? p = some b) ∧ g.settle.settle = g.settle := by
  refine ⟨(sound_of_grows h).regular (joins_of_grows h), fun _ => keptIn_of_grows,
    fun procedure kind => ?_, fun _ _ => mem_instrNodes, fun p => ?_, settle_settle g⟩
  · rw [getElem?_addNode, if_pos rfl]
  · exact ⟨_, (boundary?_addProcedure ..).trans (if_pos rfl)⟩

/-- A graph is settled, and its stop is still recorded after it has grown on and was settled
again. -/
theorem regular_of_grows_label :
    let g := (((ofRoot "f").placeInstr "f" 0 (.label "l")).addEdge 0 2).settle
    Relation.ReflTransGen (Grows Joins) (ofRoot "f") g ∧ g.settled = true ∧
      g.successors 2 = [1] ∧ g.Regular ∧ g.KeptIn (g.addProcedure "h").settle := by
  intro g
  have hjoins : Joins ((ofRoot "f").placeInstr "f" 0 (.label "l")) ⟨0, 2⟩ :=
    ⟨by decide, by decide⟩
  have hgrows : Relation.ReflTransGen (Grows Joins) (ofRoot "f") g :=
    ((Relation.ReflTransGen.single (.placeInstr _ "f" 0 (.label "l"))).tail
      (.addEdge hjoins)).tail (.settle _)
  have hlater : Relation.ReflTransGen (Grows Joins) g (g.addProcedure "h").settle :=
    (Relation.ReflTransGen.single (.addProcedure g "h")).tail (.settle _)
  obtain ⟨hregular, hkept, -⟩ := regular_of_grows hgrows
  exact ⟨hgrows, rfl, by decide +kernel, hregular, hkept _ hlater⟩

end ParLoop.FlowGraph
