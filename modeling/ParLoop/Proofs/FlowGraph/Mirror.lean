import ParLoop.Proofs.FlowGraph.CallFree
import ParLoop.Proofs.FlowGraph.Program

/-!
# Graphs with inserted nodes

A declaration `var u` and an assignment `u = value` are inserted before every instruction of the
loop body that accesses an array by the name `u` (`insertPairs`). The graph of the longer program is
that of the shorter one with pairs of inserted nodes: `Mirrors` says where every node comes from,
and that the nodes of a guarded instruction are only reached through its pair. It is kept by every
step of the construction of a graph (`Mirrors.addNode`, `Mirrors.addEdge`, `Mirrors.addFresh`,
`Mirrors.addProcedure`, `Mirrors.withCall`) and when the graphs are settled (`Mirrors.settle`).
-/

namespace ParLoop

/-- Whether an expression accesses an array by a name. -/
def Expr.accessesName (e : Expr) (u : String) : Bool :=
  e.subterms.any fun t => t.accessedArray? == some u

/-- Whether an instruction accesses an array by a name. -/
def Instr.accessesName (i : Instr) (u : String) : Bool := i.expressions.any (·.accessesName u)

namespace Node

/-- A node stands for an instruction that accesses an array by a name. -/
def Accesses (u : String) (v : Node) : Prop := ∃ i, v.kind = .instr i ∧ i.accessesName u = true

/-- A node of a body that binds no variable, or one that carries a value across a call. -/
def Passes (v : Node) : Prop :=
  match v.kind with
  | .instr i => ∀ x, i.defined? = some x →
      (∃ f k, x = argumentName f k) ∨ ∃ f k, x = captureName f k
  | .invocation .. => True
  | _ => False

/-- Control passes back from a callee at a node. -/
def IsLeave (v : Node) : Prop := ∃ a b, v.kind = .leave a b

end Node

/-- What is inserted into a loop body: a declaration of a name and an assignment to it. -/
structure Insertion where
  name : String
  value : Expr
  /-- Calls are taken out of the instructions that make them. -/
  joined : Bool

/-- One of the two inserted instructions. -/
def Insertion.instr (ι : Insertion) (second : Bool) : Instr :=
  if second then .assign (.var ι.name) ι.value else .declare ι.name

/-- Where a node of the longer graph comes from. -/
inductive Tag where
  /-- A node of the shorter graph. One that is guarded is only reached through an inserted pair. -/
  | copy (node : Nat) (guarded : Bool)
  /-- One of an inserted pair, with the node before the pair. -/
  | fresh (before : Option Nat) (second : Bool)

/-- Tags stay where they are when others come behind them. -/
theorem Tag.getElem?_append {ts : List Tag} {t : Tag} {n : Nat} (h : ts[n]? = some t)
    (new : List Tag) : (ts ++ new)[n]? = some t := by
  rw [List.getElem?_append_left (List.getElem?_eq_some_iff.1 h).1, h]

namespace FlowGraph

variable {ι : Insertion}

/-- Control may go on from a node of the longer graph, with a given tag, to a node with another. -/
def Leads (ι : Insertion) (g : FlowGraph) (v : Node) : Tag → Tag → Prop
  | .copy a _, .copy b false => ⟨a, b⟩ ∈ g.edges
  | .copy a guarded, .copy b true => ⟨a, b⟩ ∈ g.edges ∧
      ι.joined = true ∧ (guarded = true ∧ v.Passes ∨ v.IsLeave)
  | .copy a _, .fresh before false => before = some a
  | .fresh before false, .fresh before' true => before' = before
  | .fresh before true, .copy b true => ∀ a, before = some a → ⟨a, b⟩ ∈ g.edges
  | _, _ => False

theorem Leads.mono {g g₁ : FlowGraph} {v : Node} {t t' : Tag} (h : g.Leads ι v t t')
    (hg : ∀ e ∈ g.edges, e ∈ g₁.edges) : g₁.Leads ι v t t' := by
  match t, t', h with
  | .copy a _, .copy b false, h => exact hg _ h
  | .copy a _, .copy b true, h => exact ⟨hg _ h.1, h.2⟩
  | .copy a _, .fresh _ false, h => exact h
  | .fresh _ false, .fresh _ true, h => exact h
  | .fresh _ true, .copy b true, h => exact fun a ha => hg _ (h a ha)

/-- The nodes of a longer graph are those of a shorter graph, in their order, and inserted pairs. -/
structure Tagged (ι : Insertion) (ts : List Tag) (g' g : FlowGraph) : Prop where
  length_eq : ts.length = g'.size
  copied : ∀ (n' n : Nat) (c : Bool), ts[n']? = some (Tag.copy n c) → ∃ v, g'.nodes[n']? = some v ∧
    g.nodes[n]? = some v ∧ (v.Accesses ι.name → c = true)
  fresh : ∀ (n' : Nat) (o : Option Nat) (s : Bool), ts[n']? = some (Tag.fresh o s) →
    g'.nodes[n']? = some ⟨loopName, .instr (ι.instr s)⟩
  onto : ∀ n, n < g.size → ∃ (n' : Nat) (c : Bool), ts[n']? = some (Tag.copy n c)
  increasing : ∀ (m' n' m n : Nat) (c d : Bool), ts[m']? = some (Tag.copy m c) →
    ts[n']? = some (Tag.copy n d) → m' < n' → m < n
  edge : ∀ e ∈ g'.edges, ∃ t t' v, ts[e.source]? = some t ∧ ts[e.target]? = some t' ∧
    g'.nodes[e.source]? = some v ∧ g.Leads ι v t t'

namespace Tagged

variable {ts : List Tag} {g' g : FlowGraph}

/-- A node of the shorter graph has one place in the longer graph. -/
theorem inj (h : Tagged ι ts g' g) {m' n' n : Nat} {c d : Bool}
    (hm : ts[m']? = some (Tag.copy n c)) (hn : ts[n']? = some (Tag.copy n d)) : m' = n' := by
  rcases Nat.lt_trichotomy m' n' with hlt | heq | hlt
  · exact absurd (h.increasing _ _ _ _ _ _ hm hn hlt) (Nat.lt_irrefl n)
  · exact heq
  · exact absurd (h.increasing _ _ _ _ _ _ hn hm hlt) (Nat.lt_irrefl n)

/-- The same node is added to both graphs, and comes last in both. -/
theorem addNode (h : Tagged ι ts g' g) (x : String) (kind : NodeKind) {c : Bool}
    (hc : Node.Accesses ι.name ⟨x, kind⟩ → c = true) :
    Tagged ι (ts ++ [.copy g.size c]) (g'.addNode x kind) (g.addNode x kind) where
  length_eq := by
    rw [List.length_append, h.length_eq, size_addNode]
    rfl
  copied n' n d hn := by
    rcases Build.getElem?_append_singleton.1 hn with hn | ⟨rfl, ht⟩
    · obtain ⟨v, hv', hv, hc⟩ := h.copied n' n d hn
      exact ⟨v, extends_addNode g' x kind _ _ hv', extends_addNode g x kind _ _ hv, hc⟩
    · cases ht
      refine ⟨⟨x, kind⟩, ?_, ?_, hc⟩
      · rw [getElem?_addNode, if_pos h.length_eq]
      · rw [getElem?_addNode, if_pos rfl]
  fresh n' o s hn := by
    rcases Build.getElem?_append_singleton.1 hn with hn | ⟨rfl, ht⟩
    · exact extends_addNode g' x kind _ _ (h.fresh n' o s hn)
    · cases ht
  onto n hn := by
    rw [size_addNode] at hn
    rcases Nat.lt_succ_iff_lt_or_eq.1 hn with hn | rfl
    · obtain ⟨n', d, hn'⟩ := h.onto n hn
      exact ⟨n', d, Tag.getElem?_append hn' _⟩
    · exact ⟨ts.length, c, by simp⟩
  increasing m' n' m n d d' hm hn hlt := by
    have hle : n' ≤ ts.length := by
      have := (List.getElem?_eq_some_iff.1 hn).1
      rw [List.length_append, List.length_singleton] at this
      omega
    have hm : ts[m']? = some (.copy m d) := by
      rwa [List.getElem?_append_left (by omega)] at hm
    rcases Build.getElem?_append_singleton.1 hn with hn | ⟨rfl, ht⟩
    · exact h.increasing m' n' m n d d' hm hn hlt
    · cases ht
      obtain ⟨v, -, hv, -⟩ := h.copied _ _ _ hm
      exact lt_size_of_getElem? hv
  edge e he := by
    obtain ⟨t, t', v, ht, ht', hv, hleads⟩ := h.edge e he
    exact ⟨t, t', v, Tag.getElem?_append ht _, Tag.getElem?_append ht' _,
      extends_addNode g' x kind _ _ hv, hleads⟩

/-- An edge is added to the longer graph, and maybe some to the shorter graph. -/
theorem withEdge {g₁ : FlowGraph} (h : Tagged ι ts g' g) {a' b' : Nat} {t t' : Tag} {v : Node}
    (hnodes : g₁.nodes = g.nodes) (hedges : ∀ e ∈ g.edges, e ∈ g₁.edges) (ht : ts[a']? = some t)
    (ht' : ts[b']? = some t') (hv : g'.nodes[a']? = some v) (hleads : g₁.Leads ι v t t') :
    Tagged ι ts (g'.addEdge a' b') g₁ where
  length_eq := by
    rw [size_addEdge]
    exact h.length_eq
  copied n' n c hn := by
    rw [nodes_addEdge, hnodes]
    exact h.copied n' n c hn
  fresh n' o s hn := by
    rw [nodes_addEdge]
    exact h.fresh n' o s hn
  onto n hn := by
    rw [size, hnodes] at hn
    exact h.onto n hn
  increasing := h.increasing
  edge e he := by
    rw [nodes_addEdge]
    rcases mem_edges_addEdge.1 he with he | rfl
    · obtain ⟨t, t', v, ht, ht', hv, hleads⟩ := h.edge e he
      exact ⟨t, t', v, ht, ht', hv, hleads.mono hedges⟩
    · exact ⟨t, t', v, ht, ht', hv, hleads⟩

end Tagged

/-- A graph with inserted pairs mirrors a graph. -/
structure Mirrors (ι : Insertion) (ts : List Tag) (g' g : FlowGraph) : Prop
    extends Tagged ι ts g' g where
  /-- Where control goes on in the shorter graph, it does in the longer one. -/
  leaves : ∀ (n' n : Nat) (c : Bool), ts[n']? = some (Tag.copy n c) → (∃ b, ⟨n, b⟩ ∈ g.edges) →
    ∃ b, ⟨n', b⟩ ∈ g'.edges
  /-- Control goes on to a pair from the node before it. -/
  led : ∀ (n' a : Nat) (s : Bool), ts[n']? = some (Tag.fresh (some a) s) →
    ∃ (m' : Nat) (c : Bool) (b : Nat), ts[m']? = some (Tag.copy a c) ∧ ⟨m', b⟩ ∈ g'.edges
  inside : ∀ e ∈ g.edges, e.source < g.size
  boundary : ∀ x, (g.boundary? x = none → g'.boundary? x = none) ∧
    ∀ b, g.boundary? x = some b → ∃ b', g'.boundary? x = some b' ∧
      ts[b'.start]? = some (Tag.copy b.start false) ∧
      ts[b'.stop]? = some (Tag.copy b.stop false)

namespace Mirrors

variable {ts : List Tag} {g' g : FlowGraph}

/-- Boundaries stay where they are when nodes are added. -/
theorem boundary_append (h : Mirrors ι ts g' g) (new : List Tag) (x : String) :
    (g.boundary? x = none → g'.boundary? x = none) ∧
      ∀ b, g.boundary? x = some b → ∃ b', g'.boundary? x = some b' ∧
        (ts ++ new)[b'.start]? = some (Tag.copy b.start false) ∧
        (ts ++ new)[b'.stop]? = some (Tag.copy b.stop false) := by
  obtain ⟨hnone, hsome⟩ := h.boundary x
  refine ⟨hnone, fun b hb => ?_⟩
  obtain ⟨b', hb', hstart, hstop⟩ := hsome b hb
  exact ⟨b', hb', Tag.getElem?_append hstart _, Tag.getElem?_append hstop _⟩

/-- The same node is added to both graphs. -/
theorem addNode (h : Mirrors ι ts g' g) (x : String) (kind : NodeKind) {c : Bool}
    (hc : Node.Accesses ι.name ⟨x, kind⟩ → c = true) :
    Mirrors ι (ts ++ [.copy g.size c]) (g'.addNode x kind) (g.addNode x kind) where
  toTagged := h.toTagged.addNode x kind hc
  leaves n' n d hn hb := by
    rcases Build.getElem?_append_singleton.1 hn with hn | ⟨rfl, ht⟩
    · exact h.leaves n' n d hn hb
    · cases ht
      obtain ⟨b, hb⟩ := hb
      exact absurd (h.inside _ hb) (Nat.lt_irrefl _)
  led n' a s hn := by
    rcases Build.getElem?_append_singleton.1 hn with hn | ⟨-, hn⟩
    · obtain ⟨m', d, b, hm, hb⟩ := h.led n' a s hn
      exact ⟨m', d, b, Tag.getElem?_append hm _, hb⟩
    · cases hn
  inside e he := by
    rw [size_addNode]
    exact (h.inside e he).trans (Nat.lt_succ_self _)
  boundary y := h.boundary_append _ y

/-- An edge is added to the longer graph, and maybe one to the shorter graph. -/
theorem withEdge {g₁ : FlowGraph} (h : Mirrors ι ts g' g) {a' b' : Nat} {t t' : Tag} {v : Node}
    (hnodes : g₁.nodes = g.nodes) (hboundaries : g₁.boundaries = g.boundaries)
    (hedges : ∀ e ∈ g.edges, e ∈ g₁.edges) (ht : ts[a']? = some t) (ht' : ts[b']? = some t')
    (hv : g'.nodes[a']? = some v) (hleads : g₁.Leads ι v t t')
    (hnew : ∀ e ∈ g₁.edges, e ∈ g.edges ∨ e.source < g.size ∧
      ∀ (n' : Nat) (c : Bool), ts[n']? = some (Tag.copy e.source c) →
        ∃ b, ⟨n', b⟩ ∈ (g'.addEdge a' b').edges) :
    Mirrors ι ts (g'.addEdge a' b') g₁ where
  toTagged := h.toTagged.withEdge hnodes hedges ht ht' hv hleads
  leaves n' n c hn hleaves := by
    obtain ⟨b, hb⟩ := hleaves
    rcases hnew _ hb with hb | ⟨-, hb⟩
    · obtain ⟨b', hb'⟩ := h.leaves n' n c hn ⟨b, hb⟩
      exact ⟨b', mem_edges_addEdge.2 (Or.inl hb')⟩
    · exact hb n' c hn
  led n' a s hn := by
    obtain ⟨m', c, b, hm, hb⟩ := h.led n' a s hn
    exact ⟨m', c, b, hm, mem_edges_addEdge.2 (Or.inl hb)⟩
  inside e he := by
    rw [size, hnodes]
    exact (hnew e he).elim (h.inside e) fun hlt => hlt.1
  boundary x := by
    simp only [boundary?, boundaries_addEdge, hboundaries]
    exact h.boundary x

/-- Corresponding edges are added to both graphs. -/
theorem addEdge (h : Mirrors ι ts g' g) {a' a b' b : Nat} {c d : Bool} {v : Node}
    (ha : ts[a']? = some (.copy a c)) (hb : ts[b']? = some (.copy b d))
    (hv : g'.nodes[a']? = some v)
    (hguard : d = true → ι.joined = true ∧ (c = true ∧ v.Passes ∨ v.IsLeave)) :
    Mirrors ι ts (g'.addEdge a' b') (g.addEdge a b) := by
  have hmem : ⟨a, b⟩ ∈ (g.addEdge a b).edges := mem_edges_addEdge.2 (Or.inr rfl)
  refine h.withEdge (nodes_addEdge ..) (boundaries_addEdge ..)
    (fun e he => mem_edges_addEdge.2 (Or.inl he)) ha hb hv ?_ fun e he => ?_
  · cases d with
    | false => exact hmem
    | true => exact ⟨hmem, hguard rfl⟩
  · refine (mem_edges_addEdge.1 he).imp_right fun heq => ?_
    obtain ⟨w, -, hw, -⟩ := h.copied _ _ _ ha
    rw [heq]
    refine ⟨lt_size_of_getElem? hw, fun n' c' hn => ⟨b', ?_⟩⟩
    rw [h.inj hn ha]
    exact mem_edges_addEdge.2 (Or.inr rfl)

/-- Control goes on from an inserted pair to the node that it guards, where in the shorter graph it
goes on from the node before the pair. -/
theorem addEdge_fresh (h : Mirrors ι ts g' g) {a' b' b : Nat} {before : Option Nat}
    (ha : ts[a']? = some (.fresh before true)) (hb : ts[b']? = some (.copy b true)) :
    Mirrors ι ts (g'.addEdge a' b') (Build.linked before b g) := by
  obtain ⟨-, hnodes, hboundaries, -⟩ := Build.linked_frame before b g
  refine h.withEdge hnodes hboundaries (fun e he => Build.mem_edges_linked.2 (Or.inl he)) ha hb
    (h.fresh _ _ _ ha) (fun a hbefore => ?_) fun e he => ?_
  · exact Build.mem_edges_linked.2 (Or.inr ⟨hbefore, rfl⟩)
  · refine (Build.mem_edges_linked.1 he).imp_right fun ⟨hbefore, _⟩ => ?_
    rw [hbefore] at ha
    obtain ⟨m', c, b₁, hm, hb₁⟩ := h.led _ _ _ ha
    obtain ⟨w, -, hw, -⟩ := h.copied _ _ _ hm
    refine ⟨lt_size_of_getElem? hw, fun n' c' hn => ⟨b₁, ?_⟩⟩
    rw [h.inj hn hm]
    exact mem_edges_addEdge.2 (Or.inl hb₁)

/-- The boundary of a procedure is new in both graphs. -/
theorem addBoundary (h : Mirrors ι ts g' g) (x : String) :
    Mirrors ι (ts ++ [.copy g.size false] ++ [.copy (g.size + 1) false])
      { (g'.addNode x .start).addNode x .stop with
        boundaries := g'.boundaries.insert x ⟨g'.size, g'.size + 1⟩ }
      { (g.addNode x .start).addNode x .stop with
        boundaries := g.boundaries.insert x ⟨g.size, g.size + 1⟩ } := by
  have hplain : ∀ kind, kind = .start ∨ kind = .stop →
      Node.Accesses ι.name ⟨x, kind⟩ → false = true := by
    rintro kind hkind ⟨i, hi, -⟩
    rcases hkind with rfl | rfl <;> cases hi
  have hnodes := (h.addNode x .start (hplain _ (Or.inl rfl))).addNode x .stop
    (hplain _ (Or.inr rfl))
  rw [size_addNode] at hnodes
  refine { hnodes with boundary := fun y => ?_ }
  rw [boundary?, boundary?, NameMap.find?_insert, NameMap.find?_insert]
  by_cases hy : x = y
  · rw [if_pos hy, if_pos hy]
    refine ⟨fun hnone => (by cases hnone), fun b hb => ?_⟩
    cases hb
    refine ⟨_, rfl, ?_, ?_⟩
    · rw [← h.length_eq]
      simp
    · rw [← h.length_eq]
      simp
  · rw [if_neg hy, if_neg hy]
    exact hnodes.boundary y

/-- A procedure has its boundary in both graphs. -/
theorem addProcedure (h : Mirrors ι ts g' g) (x : String) :
    ∃ new, (∀ t ∈ new, ∃ n, t = Tag.copy n false) ∧
      Mirrors ι (ts ++ new) (g'.addProcedure x) (g.addProcedure x) := by
  rcases g.addProcedure_cases x with ⟨b, hb, hsame⟩ | ⟨hnone, hnew⟩
  · obtain ⟨b', hb', -⟩ := (h.boundary x).2 b hb
    rcases g'.addProcedure_cases x with ⟨-, -, hsame'⟩ | ⟨hnone', -⟩
    · rw [hsame, hsame']
      exact ⟨[], by simp, by rwa [List.append_nil]⟩
    · cases hnone'.symm.trans hb'
  · rcases g'.addProcedure_cases x with ⟨b', hb', -⟩ | ⟨-, hnew'⟩
    · cases ((h.boundary x).1 hnone).symm.trans hb'
    · rw [hnew, hnew']
      refine ⟨[.copy g.size false] ++ [.copy (g.size + 1) false], by simp, ?_⟩
      rw [← List.append_assoc]
      exact h.addBoundary x

/-- A call site is joined to its callee in both graphs. -/
theorem withCall (h : Mirrors ι ts g' g) (hjoined : ι.joined = true) (caller callee : String)
    {node' node : Nat} {c : Bool} {b' b : Boundary} (hnode : ts[node']? = some (.copy node c))
    (hstart : ts[b'.start]? = some (.copy b.start false))
    (hstop : ts[b'.stop]? = some (.copy b.stop false)) :
    Mirrors ι (ts ++ [.copy g.size false] ++ [.copy (g.size + 1) false])
      (g'.withCall caller callee node' b') (g.withCall caller callee node b) := by
  have hplain : ∀ kind, (∀ i, kind ≠ .instr i) →
      Node.Accesses ι.name ⟨caller, kind⟩ → false = true := by
    rintro kind hkind ⟨i, hi, -⟩
    exact absurd hi (hkind i)
  have hnodes := (h.addNode caller (.enter caller callee) (hplain _ nofun)).addNode caller
    (.leave callee caller) (hplain _ nofun)
  rw [size_addNode] at hnodes
  have hmore : ∀ {n : Nat} {t : Tag}, ts[n]? = some t →
      (ts ++ [.copy g.size false] ++ [.copy (g.size + 1) false])[n]? = some t := fun hn =>
    Tag.getElem?_append (Tag.getElem?_append hn _) _
  have henter : (ts ++ [.copy g.size false] ++ [.copy (g.size + 1) false])[g'.size]? =
      some (.copy g.size false) := by
    rw [← h.length_eq]
    simp
  have hleave : (ts ++ [.copy g.size false] ++ [.copy (g.size + 1) false])[g'.size + 1]? =
      some (.copy (g.size + 1) false) := by
    rw [← h.length_eq]
    simp
  obtain ⟨v, hv, -⟩ := hnodes.copied _ _ _ (hmore hnode)
  obtain ⟨v₁, hv₁, -⟩ := hnodes.copied _ _ _ henter
  obtain ⟨v₂, hv₂, -⟩ := hnodes.copied _ _ _ (hmore hstop)
  unfold FlowGraph.withCall
  have h₁ := hnodes.addEdge (hmore hnode) henter hv nofun
  have h₂ := h₁.addEdge henter (hmore hstart) (by rw [nodes_addEdge]; exact hv₁) nofun
  have h₃ := h₂.addEdge (hmore hstop) hleave (by simpa only [nodes_addEdge] using hv₂) nofun
  refine h₃.addEdge hleave (hmore hnode) (v := ⟨caller, .leave callee caller⟩) ?_
    fun _ => ⟨hjoined, Or.inr ⟨callee, caller, rfl⟩⟩
  simp only [nodes_addEdge]
  rw [getElem?_addNode, if_pos (size_addNode ..).symm]

/-- The graphs are settled: control goes on from every inserted node, and from the others as it does
in the shorter graph. -/
theorem settle (h : Mirrors ι ts g' g)
    (hsealed : ∀ (n' : Nat) (o : Option Nat) (s : Bool), ts[n']? = some (Tag.fresh o s) →
      ∃ b, ⟨n', b⟩ ∈ g'.edges) : Tagged ι ts g'.settle g.settle where
  length_eq := by
    rw [size_settle]
    exact h.length_eq
  copied := by
    rw [nodes_settle, nodes_settle]
    exact h.copied
  fresh := by
    rw [nodes_settle]
    exact h.fresh
  onto := by
    rw [size_settle]
    exact h.onto
  increasing := h.increasing
  edge e he := by
    rw [nodes_settle]
    rcases mem_edges_settle.1 he with he | he
    · obtain ⟨t, t', v, ht, ht', hv, hleads⟩ := h.edge e he
      exact ⟨t, t', v, ht, ht', hv, hleads.mono fun e he => mem_edges_settle.2 (Or.inl he)⟩
    · obtain ⟨hfree, v, b', hv, hstop, hb', htarget⟩ := mem_dangling he
      have hlt : e.source < ts.length := h.length_eq ▸ lt_size_of_getElem? hv
      obtain ⟨t, ht⟩ : ∃ t, ts[e.source]? = some t := ⟨_, List.getElem?_eq_getElem hlt⟩
      cases t with
      | fresh o s =>
        obtain ⟨b, hb⟩ := hsealed _ _ _ ht
        exact absurd hb (hfree b)
      | copy n c =>
        obtain ⟨w, hw', hw, -⟩ := h.copied _ _ _ ht
        cases hv.symm.trans hw'
        cases hb : g.boundary? v.procedure with
        | none => cases ((h.boundary _).1 hb).symm.trans hb'
        | some b =>
          obtain ⟨b₁, hb₁, -, htag⟩ := (h.boundary _).2 b hb
          cases hb'.symm.trans hb₁
          refine ⟨_, _, v, ht, htarget ▸ htag, hv, mem_edges_settle.2 (Or.inr ?_)⟩
          refine mem_dangling_of_free hw hstop (fun b₂ hb₂ => ?_) hb
          obtain ⟨b₃, hb₃⟩ := h.leaves _ _ _ ht ⟨b₂, hb₂⟩
          exact hfree b₃ hb₃

end Mirrors

end FlowGraph

end ParLoop
