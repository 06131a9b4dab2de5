import ParLoop.Proofs.FlowGraph.Outline
import ParLoop.Proofs.FlowGraph.Steps

/-!
# Drafts with joined call sites

A draft is well formed when its edges stay within bodies or join a call site to its callee, and no
instruction of it calls anything. All steps of the construction keep it so: those that only append
something (`Quiet`), and the one that joins a call site (`WellFormed.joined`). A call made for its
effects then gets the position of its instruction, any other call has its result kept in a variable
of its own (`Draft.Captures`).
-/

namespace ParLoop

/-! ### Edges -/

/-- Whether control goes on within a body from a node. -/
def NodeKind.goesOn : NodeKind → Bool
  | .instr _ | .start | .invocation .. => true
  | _ => false

/-- Whether control comes to a node from within a body. -/
def NodeKind.comesIn : NodeKind → Bool
  | .instr _ | .stop | .invocation .. => true
  | _ => false

namespace FlowGraph

/-- An edge within a body. -/
structure Inner (g : FlowGraph) (e : Edge) : Prop where
  source : ∃ n, g.nodes[e.source]? = some n ∧ n.kind.goesOn = true
  target : ∃ n, g.nodes[e.target]? = some n ∧ n.kind.comesIn = true

variable {g g' g'' : FlowGraph}

theorem Inner.mono {e : Edge} (h : g.Inner e) (hg : g.Extends g') : g'.Inner e where
  source := h.source.imp fun _ hn => ⟨hg _ _ hn.1, hn.2⟩
  target := h.target.imp fun _ hn => ⟨hg _ _ hn.1, hn.2⟩

end FlowGraph

/-! ### Well-formed drafts -/

namespace Draft

variable {d d' : Draft}

/-- A call site stands in the graph, joined to its callee. -/
structure SiteAt (g : FlowGraph) (s : CallSite) : Prop where
  node : ∃ es, g.nodes[s.node]? = some ⟨s.caller, .invocation s.callee es⟩
  enter : g.nodes[s.enter]? = some ⟨s.caller, .enter s.caller s.callee⟩
  leave : g.nodes[s.leave]? = some ⟨s.caller, .leave s.callee s.caller⟩
  leave_eq : s.leave = s.enter + 1
  joined : ∃ b, g.boundary? s.callee = some b ∧ ∀ e ∈ s.edges b, e ∈ g.edges

/-- A draft as the construction leaves it. -/
structure WellFormed (d : Draft) : Prop where
  callFree : ∀ (n : Nat) (x : String) (i : Instr),
    d.graph.nodes[n]? = some ⟨x, .instr i⟩ → i.hasCall = false
  boundary : ∀ x b, d.graph.boundary? x = some b → x ∈ d.entered ∧
    d.graph.nodes[b.start]? = some ⟨x, .start⟩ ∧ d.graph.nodes[b.stop]? = some ⟨x, .stop⟩
  /-- An edge stays within a body or joins a call site. -/
  edge : ∀ e ∈ d.graph.edges, d.graph.Inner e ∨
    ∃ s ∈ d.calls.sites, ∃ b, d.graph.boundary? s.callee = some b ∧ e ∈ s.edges b
  site : ∀ s ∈ d.calls.sites, SiteAt d.graph s
  apart : d.calls.sites.Pairwise fun s t => s.enter < t.enter ∧ s.node ≠ t.node
  position : ∀ q n, (q, n) ∈ d.graph.positions → q.1 ∈ d.entered ∧ n < d.graph.size
  mapped : (d.graph.positions.map Prod.fst).Nodup
  cursor : ∀ n, d.cursor = some n → ∃ v, d.graph.nodes[n]? = some v ∧ v.kind.goesOn = true

/-- Something was appended to a draft, but no call was made and no position taken. -/
structure Quiet (d d' : Draft) : Prop where
  root_eq : d'.graph.root = d.graph.root
  nodes : d.graph.Extends d'.graph
  bounded : ∀ x b, d.graph.boundary? x = some b → d'.graph.boundary? x = some b
  edges : ∀ e ∈ d.graph.edges, e ∈ d'.graph.edges
  positions_eq : d'.graph.positions = d.graph.positions
  calls_eq : d'.calls = d.calls
  entered_eq : d'.entered = d.entered
  captured_le : ∀ x, d.captured x ≤ d'.captured x

theorem SiteAt.mono {g g' : FlowGraph} {s : CallSite} (h : SiteAt g s) (hnodes : g.Extends g')
    (hbounded : ∀ x b, g.boundary? x = some b → g'.boundary? x = some b)
    (hedges : ∀ e ∈ g.edges, e ∈ g'.edges) : SiteAt g' s where
  node := h.node.imp fun _ hes => hnodes _ _ hes
  enter := hnodes _ _ h.enter
  leave := hnodes _ _ h.leave
  leave_eq := h.leave_eq
  joined := by
    obtain ⟨b, hb, he⟩ := h.joined
    exact ⟨b, hbounded _ b hb, fun e hmem => hedges e (he e hmem)⟩

/-- What is appended keeps a draft well formed if it calls nothing and stays within bodies. -/
theorem WellFormed.quiet (h : d.WellFormed) (hq : Quiet d d')
    (hcallFree : ∀ (n : Nat) (x : String) (i : Instr), d'.graph.nodes[n]? = some ⟨x, .instr i⟩ →
      d.graph.nodes[n]? = some ⟨x, .instr i⟩ ∨ i.hasCall = false)
    (hboundary : ∀ x b, d'.graph.boundary? x = some b → d.graph.boundary? x = some b ∨
      x ∈ d.entered ∧ d'.graph.nodes[b.start]? = some ⟨x, .start⟩ ∧
        d'.graph.nodes[b.stop]? = some ⟨x, .stop⟩)
    (hedge : ∀ e ∈ d'.graph.edges, e ∈ d.graph.edges ∨ d'.graph.Inner e)
    (hcursor : ∀ n, d'.cursor = some n →
      ∃ v, d'.graph.nodes[n]? = some v ∧ v.kind.goesOn = true) : d'.WellFormed where
  callFree n x i hn := (hcallFree n x i hn).elim (h.callFree n x i) id
  boundary x b hb := by
    rw [hq.entered_eq]
    rcases hboundary x b hb with hold | hnew
    · obtain ⟨hx, hstart, hstop⟩ := h.boundary x b hold
      exact ⟨hx, hq.nodes _ _ hstart, hq.nodes _ _ hstop⟩
    · exact hnew
  edge e he := by
    rw [hq.calls_eq]
    rcases hedge e he with hold | hnew
    · exact (h.edge e hold).imp (·.mono hq.nodes)
        fun ⟨s, hs, b, hb, hse⟩ => ⟨s, hs, b, hq.bounded _ b hb, hse⟩
    · exact Or.inl hnew
  site s hs := (h.site s (hq.calls_eq ▸ hs)).mono hq.nodes hq.bounded hq.edges
  apart := by
    rw [hq.calls_eq]
    exact h.apart
  position q n hn := by
    rw [hq.positions_eq] at hn
    rw [hq.entered_eq]
    exact ⟨(h.position q n hn).1, (h.position q n hn).2.trans_le hq.nodes.size_le⟩
  mapped := by
    rw [hq.positions_eq]
    exact h.mapped
  cursor := hcursor

/-! ### Appending -/

theorem quiet_refl (d : Draft) : Quiet d d :=
  ⟨rfl, .refl _, fun _ _ h => h, fun _ h => h, rfl, rfl, rfl, fun _ => le_rfl⟩

theorem Quiet.trans {d'' : Draft} (h : Quiet d d') (h' : Quiet d' d'') : Quiet d d'' where
  root_eq := h'.root_eq.trans h.root_eq
  nodes := h.nodes.trans h'.nodes
  bounded x b hb := h'.bounded x b (h.bounded x b hb)
  edges e he := h'.edges e (h.edges e he)
  positions_eq := h'.positions_eq.trans h.positions_eq
  calls_eq := h'.calls_eq.trans h.calls_eq
  entered_eq := h'.entered_eq.trans h.entered_eq
  captured_le x := (h.captured_le x).trans (h'.captured_le x)

theorem nodes_appended (d : Draft) (procedure : String) (kind : NodeKind) :
    (d.appended procedure kind).graph.nodes = (d.graph.addNode procedure kind).nodes :=
  (Build.linked_frame ..).2.1

theorem getElem?_appended (d : Draft) (procedure : String) (kind : NodeKind) :
    (d.appended procedure kind).graph.nodes[d.graph.size]? = some ⟨procedure, kind⟩ := by
  rw [nodes_appended, FlowGraph.getElem?_addNode, if_pos rfl]

@[simp] theorem size_appended (d : Draft) (procedure : String) (kind : NodeKind) :
    (d.appended procedure kind).graph.size = d.graph.size + 1 := by
  rw [FlowGraph.size, nodes_appended]
  exact FlowGraph.size_addNode ..

theorem quiet_appended (d : Draft) (procedure : String) (kind : NodeKind) :
    Quiet d (d.appended procedure kind) := by
  obtain ⟨hroot, hnodes, hboundaries, hpositions⟩ :=
    Build.linked_frame d.cursor d.graph.size (d.graph.addNode procedure kind)
  refine ⟨hroot, fun n v hv => ?_, fun x b hb => ?_, fun e he => ?_, hpositions, rfl, rfl,
    fun _ => le_rfl⟩
  · rw [nodes_appended]
    exact FlowGraph.extends_addNode _ _ _ n v hv
  · rw [FlowGraph.boundary?, appended, hboundaries]
    exact hb
  · exact Build.mem_edges_linked.2 (Or.inl he)

theorem WellFormed.appended (h : d.WellFormed) {procedure : String} {kind : NodeKind}
    (hfrom : kind.goesOn = true) (hto : kind.comesIn = true)
    (hcallFree : ∀ i, kind = .instr i → i.hasCall = false) :
    (d.appended procedure kind).WellFormed := by
  have hq := quiet_appended d procedure kind
  have hnew := getElem?_appended d procedure kind
  refine h.quiet hq (fun n x i hn => ?_) (fun x b hb => Or.inl ?_) (fun e he => ?_) fun n hn => ?_
  · rw [nodes_appended, FlowGraph.getElem?_addNode] at hn
    split at hn
    · cases hn
      exact Or.inr (hcallFree i rfl)
    · exact Or.inl hn
  · rwa [FlowGraph.boundary?, Draft.appended, (Build.linked_frame ..).2.2.1] at hb
  · refine (Build.mem_edges_linked.1 he).imp id fun hnext => ?_
    obtain ⟨hcursor, htarget⟩ := hnext
    obtain ⟨v, hv, hgoes⟩ := h.cursor _ hcursor
    refine ⟨⟨v, hq.nodes _ _ hv, hgoes⟩, ⟨procedure, kind⟩, ?_, hto⟩
    rw [htarget]
    exact hnew
  · cases hn
    exact ⟨_, hnew, hfrom⟩

theorem WellFormed.appendedInstr (h : d.WellFormed) {procedure : String} {i : Instr}
    (hi : i.hasCall = false) : (d.appended procedure (.instr i)).WellFormed :=
  h.appended rfl rfl fun _ hj => NodeKind.instr.inj hj ▸ hi

/-- The draft with an edge between two nodes of bodies. -/
theorem WellFormed.withEdge (h : d.WellFormed) {u v : Nat} (hedge : d.graph.Inner ⟨u, v⟩) :
    ({ d with graph := d.graph.addEdge u v } : Draft).WellFormed ∧
      Quiet d { d with graph := d.graph.addEdge u v } := by
  have hq : Quiet d { d with graph := d.graph.addEdge u v } := by
    refine ⟨by simp, ?_, ?_, ?_, by simp, rfl, rfl, fun _ => le_rfl⟩ <;>
      simp [FlowGraph.Extends, FlowGraph.boundary?]
    exact fun e he => Or.inl he
  refine ⟨h.quiet hq (fun n x i hn => ?_) (fun x b hb => ?_) (fun e he => ?_) fun n hn => ?_, hq⟩
  · exact Or.inl (by simpa using hn)
  · exact Or.inl (by simpa [FlowGraph.boundary?] using hb)
  · refine (FlowGraph.mem_edges_addEdge.1 he).imp id fun heq => ?_
    rw [heq]
    exact hedge.mono hq.nodes
  · exact (h.cursor n hn).imp fun v hv => ⟨hq.nodes _ _ hv.1, hv.2⟩

/-- The draft with control going on from elsewhere. -/
theorem WellFormed.withCursor (h : d.WellFormed) {cursor : Option Nat}
    (hcursor : ∀ n, cursor = some n → ∃ v, d.graph.nodes[n]? = some v ∧ v.kind.goesOn = true) :
    ({ d with cursor := cursor } : Draft).WellFormed :=
  { h with cursor := hcursor }

/-- The draft with a boundary for a procedure that was entered. -/
theorem WellFormed.withProcedure (h : d.WellFormed) {x : String} (hx : x ∈ d.entered) :
    ({ d with graph := d.graph.addProcedure x } : Draft).WellFormed ∧
      Quiet d { d with graph := d.graph.addProcedure x } := by
  rcases FlowGraph.addProcedure_cases d.graph x with ⟨b, -, hsame⟩ | ⟨hnone, hnew⟩
  · rw [hsame]
    exact ⟨h, quiet_refl d⟩
  · have hstart : (d.graph.addProcedure x).nodes[d.graph.size]? = some ⟨x, .start⟩ := by
      rw [hnew]
      show ((d.graph.addNode x .start).addNode x .stop).nodes[d.graph.size]? = _
      rw [FlowGraph.getElem?_addNode, FlowGraph.getElem?_addNode, FlowGraph.size_addNode,
        if_neg (by omega), if_pos rfl]
    have hstop : (d.graph.addProcedure x).nodes[d.graph.size + 1]? = some ⟨x, .stop⟩ := by
      rw [hnew]
      show ((d.graph.addNode x .start).addNode x .stop).nodes[d.graph.size + 1]? = _
      rw [FlowGraph.getElem?_addNode, FlowGraph.size_addNode, if_pos rfl]
    have hedges : (d.graph.addProcedure x).edges = d.graph.edges := by rw [hnew]; rfl
    have hq : Quiet d { d with graph := d.graph.addProcedure x } := by
      refine ⟨by rw [hnew]; rfl, FlowGraph.extends_addProcedure _ _, fun y b hb => ?_,
        fun e he => hedges ▸ he, by rw [hnew]; rfl, rfl, rfl, fun _ => le_rfl⟩
      rw [FlowGraph.boundary?_addProcedure]
      split
      case isTrue hxy =>
        subst hxy
        rw [hb, Option.getD_some]
      case isFalse => exact hb
    refine ⟨h.quiet hq (fun n y i hn => Or.inl ?_) (fun y b hb => ?_) (fun e he => ?_)
      fun n hn => (h.cursor n hn).imp fun v hv => ⟨hq.nodes _ _ hv.1, hv.2⟩, hq⟩
    · rw [hnew] at hn
      change ((d.graph.addNode x .start).addNode x .stop).nodes[n]? = _ at hn
      rw [FlowGraph.getElem?_addNode, FlowGraph.getElem?_addNode] at hn
      split at hn
      · cases hn
      · split at hn
        · cases hn
        · exact hn
    · change (d.graph.addProcedure x).boundary? y = _ at hb
      rw [FlowGraph.boundary?_addProcedure, hnone] at hb
      split at hb
      case isTrue hxy =>
        subst hxy
        cases hb
        exact Or.inr ⟨hx, hstart, hstop⟩
      case isFalse => exact Or.inl hb
    · exact Or.inl (hedges ▸ he)

/-- The draft in which one more procedure was entered. -/
theorem WellFormed.entering (h : d.WellFormed) (x : String) :
    ({ d with entered := d.entered.insert x } : Draft).WellFormed where
  callFree := h.callFree
  boundary y b hb := ⟨OrderedSet.mem_insert.2 (Or.inr (h.boundary y b hb).1), (h.boundary y b hb).2⟩
  edge := h.edge
  site := h.site
  apart := h.apart
  position q n hn :=
    ⟨OrderedSet.mem_insert.2 (Or.inr (h.position q n hn).1), (h.position q n hn).2⟩
  mapped := h.mapped
  cursor := h.cursor

/-! ### Joining -/

variable {caller callee : String} {node : Nat}

/-- The call site that is joined next. -/
def nextSite (d : Draft) (caller callee : String) (node : Nat) : CallSite :=
  ⟨caller, callee, node, (d.graph.addProcedure callee).size, (d.graph.addProcedure callee).size + 1⟩

theorem sites_joined (d : Draft) (caller callee : String) (node : Nat) :
    (d.joined caller callee node).calls.sites = d.calls.sites ++ [d.nextSite caller callee node] :=
  rfl

theorem WellFormed.withCall (h : d.WellFormed) {b : Boundary}
    (hb : d.graph.boundary? callee = some b)
    (hnode : ∃ es, d.graph.nodes[node]? = some ⟨caller, .invocation callee es⟩)
    (hfresh : ∀ s ∈ d.calls.sites, s.node ≠ node) :
    ({ d with
      graph := d.graph.withCall caller callee node b
      calls := d.calls.add ⟨caller, callee, node, d.graph.size, d.graph.size + 1⟩
      cursor := some node } : Draft).WellFormed := by
  obtain ⟨-, hboundaries, hpositions⟩ := d.graph.withCall_frame caller callee node b
  have hnodes := d.graph.extends_withCall caller callee node b
  have hget := d.graph.getElem?_withCall caller callee node b
  have hmem := d.graph.mem_edges_withCall caller callee node b
  have hbounded : ∀ x, (d.graph.withCall caller callee node b).boundary? x =
      d.graph.boundary? x := fun x => by
    rw [FlowGraph.boundary?, FlowGraph.boundary?, hboundaries]
  refine ⟨fun n x i hn => ?_, fun x c hc => ?_, fun e he => ?_, fun s hs => ?_, ?_,
    fun q n hn => ?_, hpositions ▸ h.mapped, fun n hn => ?_⟩
  · rw [hget] at hn
    split at hn
    · cases hn
    · split at hn
      · cases hn
      · exact h.callFree n x i hn
  · obtain ⟨hx, hstart, hstop⟩ := h.boundary x c ((hbounded x).symm.trans hc)
    exact ⟨hx, hnodes _ _ hstart, hnodes _ _ hstop⟩
  · simp only [hbounded, CallGraph.add, List.mem_append, List.mem_singleton]
    rcases (hmem e).1 he with he | he
    · rcases h.edge e he with hinner | ⟨s, hs, c, hc, hse⟩
      · exact Or.inl (hinner.mono hnodes)
      · exact Or.inr ⟨s, Or.inl hs, c, hc, hse⟩
    · exact Or.inr ⟨_, Or.inr rfl, b, hb, he⟩
  · rcases List.mem_append.1 hs with hs | hs
    · exact (h.site s hs).mono hnodes (fun x c hc => (hbounded x).trans hc)
        fun e he => (hmem e).2 (Or.inl he)
    · rw [List.mem_singleton.1 hs]
      refine ⟨hnode.imp fun es hes => hnodes _ _ hes, ?_, ?_, rfl, b,
        (hbounded callee).trans hb, fun e he => (hmem e).2 (Or.inr he)⟩
      · rw [hget, if_neg (Nat.ne_of_lt (Nat.lt_succ_self _)), if_pos rfl]
      · rw [hget, if_pos rfl]
  · refine List.pairwise_append.2 ⟨h.apart, by simp, fun s hs t ht => ?_⟩
    rw [List.mem_singleton.1 ht]
    exact ⟨FlowGraph.lt_size_of_getElem? (h.site s hs).enter, hfresh s hs⟩
  · dsimp only at hn ⊢
    rw [hpositions] at hn
    exact ⟨(h.position q n hn).1, (h.position q n hn).2.trans_le hnodes.size_le⟩
  · cases hn
    obtain ⟨es, hes⟩ := hnode
    exact ⟨_, hnodes _ _ hes, rfl⟩

/-- **Joining a call site to its callee keeps a draft well formed.** -/
theorem WellFormed.joined (h : d.WellFormed) (hcallee : callee ∈ d.entered)
    (hnode : ∃ es, d.graph.nodes[node]? = some ⟨caller, .invocation callee es⟩)
    (hfresh : ∀ s ∈ d.calls.sites, s.node ≠ node) : (d.joined caller callee node).WellFormed := by
  obtain ⟨h₁, hq⟩ := h.withProcedure hcallee
  have hb : (d.graph.addProcedure callee).boundary? callee =
      some (((d.graph.addProcedure callee).boundary? callee).getD ⟨0, 0⟩) := by
    rw [FlowGraph.boundary?_addProcedure, if_pos rfl, Option.getD_some]
  exact h₁.withCall hb (hnode.imp fun es hes => hq.nodes _ _ hes) hfresh

end Draft

/-! ### Positions and captures -/

/-- The number of a capture and its procedure can be read off its name. -/
theorem captureName_inj {f f' : String} {k k' : Nat} (h : captureName f k = captureName f' k') :
    f = f' ∧ k = k' := by
  have hdigits : ∀ n : Nat, '_' ∉ (toString n).toList := by simp
  have hlists : f.toList ++ '_' :: (toString k).toList =
      f'.toList ++ '_' :: (toString k').toList := by
    have := congrArg String.toList h
    simpa [captureName] using this
  -- The name of the procedure may hold underscores, but the number holds none.
  have hsplit : f.toList = f'.toList ∧ (toString k).toList = (toString k').toList := by
    rcases List.append_eq_append_iff.1 hlists with ⟨l, hf, hk⟩ | ⟨l, hf, hk⟩
    · cases l with
      | nil => exact ⟨by simpa using hf.symm, (List.cons.inj hk).2⟩
      | cons c l =>
        have hk := (List.cons.inj hk).2
        exact absurd (hk ▸ by simp : '_' ∈ (toString k).toList) (hdigits k)
    · cases l with
      | nil => exact ⟨by simpa using hf, (List.cons.inj hk).2.symm⟩
      | cons c l =>
        have hk := (List.cons.inj hk).2
        exact absurd (hk ▸ by simp : '_' ∈ (toString k').toList) (hdigits k')
  have hvalue : ∀ n : Nat, Nat.ofDigitChars 10 (toString n).toList 0 = n := by
    intro n
    simp [Nat.toString_eq_repr, Nat.repr, Nat.ofDigitChars_ten_toDigits]
  refine ⟨String.toList_inj.1 hsplit.1, ?_⟩
  rw [← hvalue k, hsplit.2, hvalue]

theorem FlowGraph.addEdge_mapPosition (g : FlowGraph) (x : String) (k m u v : Nat) :
    (g.mapPosition x k m).addEdge u v = (g.addEdge u v).mapPosition x k m := by
  have hposition : (g.addEdge u v).position? x k = g.position? x k := by
    rw [position?, position?, positions_addEdge]
  cases hfree : g.position? x k with
  | some n => simp only [mapPosition, hposition, hfree]
  | none =>
    simp only [mapPosition, hposition, hfree]
    by_cases he : (⟨u, v⟩ : Edge) ∈ g.edges
    · simp only [addEdge, if_pos he]
    · simp only [addEdge, if_neg he]

/-- Whether a node stands at a position of a body. -/
def FlowGraph.isPlaced (g : FlowGraph) (node : Nat) : Bool := g.positions.any fun e => e.2 == node

/-- The result of a call is kept in a variable right behind the call site. -/
structure FlowGraph.CapturedAs (g : FlowGraph) (s : CallSite) (x : String) : Prop where
  declare : g.nodes[s.leave + 1]? = some ⟨s.caller, .instr (.declare x)⟩
  assign : g.nodes[s.leave + 2]? =
    some ⟨s.caller, .instr (.assign (.var x) (.var (resultName s.callee)))⟩

namespace FlowGraph.CapturedAs

variable {g g' : FlowGraph} {s : CallSite} {x : String}

theorem mono (h : g.CapturedAs s x) (hg : g.Extends g') : g'.CapturedAs s x :=
  ⟨hg _ _ h.declare, hg _ _ h.assign⟩

theorem instr?_eq (h : g.CapturedAs s x) : g.instr? (s.leave + 1) = some (.declare x) := by
  rw [FlowGraph.instr?, h.declare]
  rfl

end FlowGraph.CapturedAs

namespace Draft

variable {d d' : Draft} {caller callee : String} {node : Nat}

/-- The call sites at no position: those of calls whose results are used. -/
def kept (d : Draft) : List CallSite := d.calls.sites.filter fun s => !d.graph.isPlaced s.node

/-- The results of some calls are kept, each in a variable of its own. -/
structure Captures (d : Draft) (sites : List CallSite) : Prop where
  named : ∀ s ∈ sites, ∃ k < d.captured s.callee,
    d.graph.CapturedAs s (captureName s.callee k)
  apart : sites.Pairwise fun s t => d.graph.instr? (s.leave + 1) ≠ d.graph.instr? (t.leave + 1)

theorem Captures.mono {sites : List CallSite} (h : d.Captures sites)
    (hnodes : d.graph.Extends d'.graph) (hcaptured : ∀ x, d.captured x ≤ d'.captured x) :
    d'.Captures sites where
  named s hs := by
    obtain ⟨k, hk, hx⟩ := h.named s hs
    exact ⟨k, hk.trans_le (hcaptured _), hx.mono hnodes⟩
  apart := by
    refine h.apart.imp_of_mem fun {s t} hs ht hne => ?_
    obtain ⟨k, -, hx⟩ := h.named s hs
    obtain ⟨k', -, hy⟩ := h.named t ht
    rw [hx.instr?_eq, hy.instr?_eq] at hne
    rwa [(hx.mono hnodes).instr?_eq, (hy.mono hnodes).instr?_eq]

theorem Quiet.kept_eq (hq : Quiet d d') : d'.kept = d.kept := by
  rw [kept, kept, hq.calls_eq]
  simp only [FlowGraph.isPlaced, hq.positions_eq]

theorem Quiet.captures (hq : Quiet d d') (h : d.Captures d.kept) : d'.Captures d'.kept :=
  hq.kept_eq ▸ h.mono hq.nodes hq.captured_le

/-! ### Taking a position -/

variable {x : String} {k : Nat}

theorem mapped_of_free (hfree : d.graph.position? x k = none) : d.mapped x k node =
    { d with graph := { d.graph with positions := d.graph.positions ++ [((x, k), node)] } } := by
  simp only [mapped, FlowGraph.mapPosition, hfree]

theorem WellFormed.withPosition (h : d.WellFormed) (hx : x ∈ d.entered)
    (hnode : node < d.graph.size) (hfree : d.graph.position? x k = none) :
    (d.mapped x k node).WellFormed := by
  rw [mapped_of_free hfree]
  refine ⟨h.callFree, h.boundary, fun e he => ?_, fun s hs => ?_, h.apart, fun q n hn => ?_, ?_,
    h.cursor⟩
  · exact (h.edge e he).imp_left fun hinner => ⟨hinner.source, hinner.target⟩
  · have hsite := h.site s hs
    exact ⟨hsite.node, hsite.enter, hsite.leave, hsite.leave_eq, hsite.joined⟩
  · rcases List.mem_append.1 hn with hn | hn
    · exact h.position q n hn
    · cases List.mem_singleton.1 hn
      exact ⟨hx, hnode⟩
  · dsimp only
    rw [List.map_append, List.nodup_append]
    refine ⟨h.mapped, by simp, fun q hq q' hq' => ?_⟩
    rintro rfl
    cases List.mem_singleton.1 hq'
    obtain ⟨⟨q, n⟩, hqn, rfl⟩ := List.mem_map.1 hq
    exact absurd (List.lookup_eq_none_iff.1 hfree _ hqn) (by simp)

/-- A call site at a position is not kept. -/
theorem kept_mapped (hfree : d.graph.position? x k = none) :
    (d.mapped x k node).kept = d.kept.filter fun s => s.node != node := by
  rw [mapped_of_free hfree, kept, kept, List.filter_filter]
  refine List.filter_congr fun s _ => ?_
  simp only [FlowGraph.isPlaced, List.any_append, List.any_cons, List.any_nil, Bool.or_false,
    Bool.not_or, Bool.and_comm, bne, Bool.beq_comm]

/-- What is left of an instruction is appended and takes its position. -/
theorem drawn_eq (i : Instr) (hfree : d.graph.position? x k = none) :
    Build.drawn x k i d =
      { (d.appended x (.instr i)).mapped x k d.graph.size with
        cursor := if i.fallsThrough then some d.graph.size else none } := by
  have hplace : d.graph.placeInstr x k i =
      (d.graph.addNode x (.instr i)).mapPosition x k d.graph.size := by
    simp only [FlowGraph.placeInstr, hfree]
  have hlinked : Build.linked d.cursor d.graph.size
      ((d.graph.addNode x (.instr i)).mapPosition x k d.graph.size) =
      (Build.linked d.cursor d.graph.size (d.graph.addNode x (.instr i))).mapPosition x k
        d.graph.size := by
    cases d.cursor with
    | none => rfl
    | some last => exact FlowGraph.addEdge_mapPosition ..
  rw [Build.drawn, hplace, hlinked]
  rfl

/-! ### Calls -/

theorem positions_joined (d : Draft) (caller callee : String) (node : Nat) :
    (d.joined caller callee node).graph.positions = d.graph.positions := by
  refine (FlowGraph.withCall_frame ..).2.2.trans ?_
  rcases FlowGraph.addProcedure_cases d.graph callee with ⟨b, -, h⟩ | ⟨-, h⟩ <;> rw [h]
  rfl

theorem root_joined (d : Draft) (caller callee : String) (node : Nat) :
    (d.joined caller callee node).graph.root = d.graph.root := by
  refine (FlowGraph.withCall_frame ..).1.trans ?_
  rcases FlowGraph.addProcedure_cases d.graph callee with ⟨b, -, h⟩ | ⟨-, h⟩ <;> rw [h]
  rfl

theorem extends_joined (d : Draft) (caller callee : String) (node : Nat) :
    d.graph.Extends (d.joined caller callee node).graph :=
  (FlowGraph.extends_addProcedure _ _).trans (FlowGraph.extends_withCall _ _ _ _ _)

theorem size_joined (d : Draft) (caller callee : String) (node : Nat) :
    (d.joined caller callee node).graph.size = (d.nextSite caller callee node).leave + 1 := by
  exact FlowGraph.size_withCall ..

theorem boundary?_joined (d : Draft) (caller callee : String) (node : Nat) (x : String) :
    (d.joined caller callee node).graph.boundary? x =
      (d.graph.addProcedure callee).boundary? x := by
  show (FlowGraph.withCall ..).boundaries.find? x = _
  rw [(FlowGraph.withCall_frame ..).2.1]
  rfl

theorem kept_joined (hfree : d.graph.isPlaced node = false) :
    (d.joined caller callee node).kept = d.kept ++ [d.nextSite caller callee node] := by
  rw [kept, kept, sites_joined, List.filter_append]
  simp only [FlowGraph.isPlaced, positions_joined]
  congr 1
  refine List.filter_eq_self.2 fun s hs => ?_
  rw [List.mem_singleton.1 hs]
  exact Bool.not_eq_true' _ ▸ hfree

theorem quiet_withCapture (d : Draft) (caller callee : String) :
    Quiet d (d.withCapture caller callee) := by
  have hcount :
      Quiet d { d with captures := d.captures.insert callee (d.captured callee + 1) } := by
    refine ⟨rfl, .refl _, fun _ _ h => h, fun _ h => h, rfl, rfl, rfl, fun x => ?_⟩
    rw [captured, captured, NameMap.find?_insert]
    split
    case isTrue hx =>
      rw [← hx]
      exact Nat.le_succ _
    case isFalse => exact le_rfl
  exact (hcount.trans (quiet_appended ..)).trans (quiet_appended ..)

theorem captured_withCapture (d : Draft) (caller callee : String) :
    d.captured callee < (d.withCapture caller callee).captured callee := by
  show _ < ((d.captures.insert callee (d.captured callee + 1)).find? callee).getD 0
  rw [NameMap.find?_insert, if_pos rfl]
  exact Nat.lt_succ_self _

theorem WellFormed.withCapture (h : d.WellFormed) (caller callee : String) :
    (d.withCapture caller callee).WellFormed := by
  have hcount : ({ d with captures := d.captures.insert callee (d.captured callee + 1) } :
    Draft).WellFormed := { h with }
  exact (hcount.appendedInstr rfl).appendedInstr rfl

/-- The nodes that keep a result stand behind all others. -/
theorem capturedAs_withCapture (d : Draft) {s : CallSite} (hsize : s.leave + 1 = d.graph.size) :
    (d.withCapture s.caller s.callee).graph.CapturedAs s
      (captureName s.callee (d.captured s.callee)) := by
  constructor
  · rw [hsize]
    exact (quiet_appended ..).nodes _ _ (getElem?_appended ..)
  · rw [show s.leave + 2 = d.graph.size + 1 by omega]
    exact (congrArg _ (size_appended ..).symm).trans (getElem?_appended ..)

/-- The result of the call that was joined last is kept under a new name. -/
theorem captures_withCapture (h : d.Captures d.kept) (hfree : d.graph.isPlaced node = false) :
    ((d.joined caller callee node).withCapture caller callee).kept =
        d.kept ++ [d.nextSite caller callee node] ∧
      ((d.joined caller callee node).withCapture caller callee).Captures
        (d.kept ++ [d.nextSite caller callee node]) := by
  have hq := quiet_withCapture (d.joined caller callee node) caller callee
  refine ⟨by rw [hq.kept_eq, kept_joined hfree], ?_⟩
  have hold : ((d.joined caller callee node).withCapture caller callee).Captures d.kept :=
    h.mono ((extends_joined _ _ _ _).trans hq.nodes) hq.captured_le
  have hnew : ((d.joined caller callee node).withCapture caller callee).graph.CapturedAs
      (d.nextSite caller callee node) (captureName callee (d.captured callee)) :=
    capturedAs_withCapture (d.joined caller callee node) (s := d.nextSite caller callee node)
      (size_joined d caller callee node).symm
  constructor
  · intro s hs
    rcases List.mem_append.1 hs with hs | hs
    · exact hold.named s hs
    · rw [List.mem_singleton.1 hs]
      exact ⟨_, captured_withCapture (d.joined caller callee node) caller callee, hnew⟩
  · refine List.pairwise_append.2 ⟨hold.apart, by simp, fun s hs t ht => ?_⟩
    -- The earlier captures of the same procedure have smaller numbers.
    obtain ⟨k, hk, hx⟩ := h.named s hs
    have hx' := hx.mono ((extends_joined d caller callee node).trans hq.nodes)
    rw [List.mem_singleton.1 ht, hx'.instr?_eq, hnew.instr?_eq]
    intro heq
    obtain ⟨hcallee, rfl⟩ := captureName_inj (Instr.declare.inj (Option.some.inj heq))
    rw [hcallee] at hk
    exact Nat.lt_irrefl _ hk

end Draft

end ParLoop
