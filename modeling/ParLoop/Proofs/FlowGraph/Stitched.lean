import ParLoop.Proofs.FlowGraph.Procedures

/-!
# The graph of a program with its procedures

`Program.Reached p` are the loop body and the procedures called from it, directly or through others.
The graph of a program can be built exactly if all of them are supplied and their labels are in
order. It then holds these bodies and no others, every position with its node, and a call site for
every call, which is joined to its callee and to nothing else (`ofProgram_stitched`).

The name of the loop body is taken, and a procedure of this name is not looked into. Every other
procedure that is called, directly or through such ones, has a boundary in the graph
(`contains_of_called`).
-/

namespace ParLoop

/-- The procedures that the loop body calls, directly or through procedures of a given kind. -/
inductive Program.Called (p : Program) (through : String → Prop) : String → Prop where
  | direct {name : String} (h : name ∈ p.root.callees) : Called p through name
  | step {caller name : String} {f : Procedure} (h : Called p through caller)
      (hthrough : through caller) (hf : p.procedures.find? caller = some f)
      (hname : name ∈ f.callees) : Called p through name

namespace Program

/-- The loop body and the procedures called from it, directly or through others. -/
def Reached (p : Program) (x : String) : Prop := x = loopName ∨ p.Called (fun _ => True) x

/-- The body that stands under a name. -/
def bodyOf (p : Program) (x : String) : List Instr :=
  if x = loopName then p.body else (p.procedures.find? x).elim [] (·.body)

/-- Every procedure that is called is supplied, and the labels of all bodies are in order. -/
def Linkable (p : Program) : Prop :=
  WellLabelled p.body ∧
    ∀ x, p.Called (fun _ => True) x → ∃ f, p.procedures.find? x = some f ∧ WellLabelled f.body

end Program

namespace FlowGraph

/-- The name under which the result of a call is kept. -/
def captureOf (g : FlowGraph) (s : CallSite) : Option String :=
  match g.instr? (s.leave + 1) with
  | some (.declare x) => some x
  | _ => none

/-- The call sites at no position of a body: those of calls within expressions. -/
def nested (g : FlowGraph) (calls : CallGraph) : List CallSite :=
  calls.sites.filter fun s => !g.isPlaced s.node

/-- A graph holds the bodies of a program, with all their calls joined to the callees. -/
structure Stitched (p : Program) (g : FlowGraph) (calls : CallGraph) : Prop where
  procedures : ∀ x, x ∈ g.boundaries.names ↔ p.Reached x
  reachable : ∀ x, x ∈ calls.reachable ↔ p.Reached x
  /-- Every position has a node of its procedure. -/
  position : ∀ x, p.Reached x → ∀ k i, (p.bodyOf x)[k]? = some i →
    ∃ n kind, g.position? x k = some n ∧ g.nodes[n]? = some ⟨x, kind⟩ ∧ kind.StandsFor i
  callFree : ∀ (n : Nat) (x : String) (i : Instr),
    g.nodes[n]? = some ⟨x, .instr i⟩ → i.hasCall = false
  sites_length : calls.sites.length =
    (g.boundaries.names.flatMap fun x => (p.bodyOf x).flatMap Instr.callees).length
  sites_apart : (calls.sites.map (·.node)).Nodup
  /-- Control goes from a call to its callee and back, and no other way. -/
  site : ∀ s ∈ calls.sites, (∃ es, g.nodes[s.node]? = some ⟨s.caller, .invocation s.callee es⟩) ∧
    g.nodes[s.enter]? = some ⟨s.caller, .enter s.caller s.callee⟩ ∧
    g.nodes[s.leave]? = some ⟨s.caller, .leave s.callee s.caller⟩ ∧
    ∃ b, g.boundary? s.callee = some b ∧ g.nodes[b.start]? = some ⟨s.callee, .start⟩ ∧
      g.nodes[b.stop]? = some ⟨s.callee, .stop⟩ ∧
      ∀ e : Edge, e ∈ g.edges ∧ (e.source = s.enter ∨ e.target = s.enter ∨
        e.source = s.leave ∨ e.target = s.leave) ↔ e ∈ s.edges b
  nested_length : (g.nested calls).length =
    (g.boundaries.names.flatMap fun x => (p.bodyOf x).flatMap Instr.usedCalls).length
  captured : ∀ s ∈ g.nested calls, ∃ k, g.captureOf s = some (captureName s.callee k) ∧
    g.CapturedAs s (captureName s.callee k)
  captures_apart : ((g.nested calls).map g.captureOf).Nodup

end FlowGraph

/-! ### The edges at a call site -/

namespace Draft

variable {d : Draft}

theorem WellFormed.eq_of_enter_eq (h : d.WellFormed) {s t : CallSite} (hs : s ∈ d.calls.sites)
    (ht : t ∈ d.calls.sites) (heq : s.enter = t.enter) : s = t := by
  obtain ⟨i, hi, rfl⟩ := List.getElem_of_mem hs
  obtain ⟨j, hj, rfl⟩ := List.getElem_of_mem ht
  have hapart := List.pairwise_iff_getElem.1 h.apart
  rcases Nat.lt_trichotomy i j with hlt | rfl | hlt
  · exact absurd heq (hapart i j hi hj hlt).1.ne
  · rfl
  · exact absurd heq.symm (hapart j i hj hi hlt).1.ne

/-- The two nodes of a call site stand for nothing else. -/
theorem WellFormed.eq_of_touches (h : d.WellFormed) {s t : CallSite} (hs : s ∈ d.calls.sites)
    (ht : t ∈ d.calls.sites) {b : Boundary} (hb : d.graph.boundary? t.callee = some b) {e : Edge}
    (he : e ∈ t.edges b) (hat : e.source = s.enter ∨ e.target = s.enter ∨ e.source = s.leave ∨
      e.target = s.leave) : t = s := by
  obtain ⟨-, henter, hleave, hleave_eq, -⟩ := h.site s hs
  obtain ⟨⟨es, hnode'⟩, henter', hleave', hleave_eq', -⟩ := h.site t ht
  obtain ⟨-, hstart, hstop⟩ := h.boundary _ b hb
  have hsame : t.enter = s.enter ∨ t.leave = s.leave := by
    simp only [CallSite.edges, List.mem_cons, List.not_mem_nil, or_false] at he
    rcases he with rfl | rfl | rfl | rfl <;> rcases hat with hat | hat | hat | hat
    all_goals first
      | exact Or.inl hat
      | exact Or.inr hat
      -- The other nodes are of other kinds.
      | simp_all
  exact h.eq_of_enter_eq ht hs (by omega)

/-- The only edges at the two nodes of a call site are those that join it to its callee. -/
theorem WellFormed.mem_edges_site (h : d.WellFormed) {s : CallSite} (hs : s ∈ d.calls.sites)
    {b : Boundary} (hb : d.graph.boundary? s.callee = some b) (e : Edge) :
    e ∈ d.graph.settle.edges ∧ (e.source = s.enter ∨ e.target = s.enter ∨ e.source = s.leave ∨
      e.target = s.leave) ↔ e ∈ s.edges b := by
  obtain ⟨⟨es, hnode⟩, henter, hleave, -, b', hb', hjoined⟩ := h.site s hs
  cases hb.symm.trans hb'
  rw [FlowGraph.mem_edges_settle]
  constructor
  · rintro ⟨he | he, hat⟩
    · rcases h.edge e he with ⟨⟨u, hu, hgoes⟩, v, hv, hcomes⟩ | ⟨t, ht, c, hc, he⟩
      · -- An edge within a body touches neither node.
        rcases hat with hat | hat | hat | hat
        · cases henter.symm.trans (hat ▸ hu)
          cases hgoes
        · cases henter.symm.trans (hat ▸ hv)
          cases hcomes
        · cases hleave.symm.trans (hat ▸ hu)
          cases hgoes
        · cases hleave.symm.trans (hat ▸ hv)
          cases hcomes
      · obtain rfl := h.eq_of_touches hs ht hc he hat
        cases hb.symm.trans hc
        exact he
    · -- Both nodes have a way out, and so none is added.
      obtain ⟨hfree, n, c, -, -, hc, htarget⟩ := FlowGraph.mem_dangling he
      obtain ⟨-, -, hstop⟩ := h.boundary _ c hc
      rw [← htarget] at hstop
      rcases hat with hat | hat | hat | hat
      · exact absurd (hat ▸ hjoined _ (by simp [CallSite.edges])) (hfree b.start)
      · exact absurd (henter.symm.trans (hat ▸ hstop)) (by simp)
      · exact absurd (hat ▸ hjoined _ (by simp [CallSite.edges])) (hfree s.node)
      · exact absurd (hleave.symm.trans (hat ▸ hstop)) (by simp)
  · intro he
    refine ⟨Or.inl (hjoined e he), ?_⟩
    simp only [CallSite.edges, List.mem_cons, List.not_mem_nil, or_false] at he
    rcases he with rfl | rfl | rfl | rfl <;> simp

/-- A draft with the boundary of its root alone. -/
def ofRoot (x : String) : Draft :=
  { graph := .ofRoot x, calls := { root := x }, entered := .ofList [x] }

theorem valid_ofRoot (x : String) : (ofRoot x).Valid := by
  have hempty : Draft.WellFormed
      { graph := ⟨x, #[], #[], ∅, [], #[], false⟩
        calls := { root := x }
        entered := .ofList [x] } :=
    ⟨by simp, (fun _ _ hb => nomatch hb), by simp, by simp, by simp, by simp, by simp, by simp⟩
  have hroot := (hempty.withProcedure (x := x) (by simp)).1
  exact ⟨hroot, by simp [kept, ofRoot], by simp [kept, ofRoot]⟩

end Draft

namespace FlowGraph

variable {p : Program} {g : FlowGraph} {calls : CallGraph}

/-- The construction of the graph of a program, from its root. -/
theorem makes_ofProgram (p : Program) :
    Build.Makes p.procedures (p.Called fun _ => True) p.Linkable p.procedures.size
      (fun d => loopName ∈ d.entered ∧ ∀ k n, ((loopName, k), n) ∉ d.graph.positions)
      (Build.addBody (some (Build.linkingTo p.procedures p.procedures.size)) loopName [] p.body)
      (p.body.flatMap Instr.callees) (p.body.flatMap Instr.usedCalls).length
      ((List.range p.body.length).map fun k => (loopName, k))
      fun _ d => (∃ b, d.graph.boundary? loopName = some b) ∧ WellLabelled p.body ∧
        ∀ k i, p.body[k]? = some i → d.Placed loopName k i := by
  have hstitches : Build.Stitches p.procedures (p.Called fun _ => True) p.Linkable p.procedures.size
      (Build.linkingTo p.procedures p.procedures.size) := by
    refine Build.stitches_linkingTo (fun h x hx => ?_) (fun x f hx hf h => ?_)
      (fun x f hx hf y hy => ?_) _
    · exact (h.2 x hx).imp fun f hf => hf.1
    · obtain ⟨f', hf', hlabels⟩ := h.2 x hx
      cases hf.symm.trans hf'
      exact hlabels
    · exact .step hx trivial hf (OrderedSet.mem_ofList.2 hy)
  exact Build.makes_addBody hstitches (by simp) (fun h => h.1) fun y hy =>
    .direct (OrderedSet.mem_ofList.2 hy)

/-- Nothing stands at a position of the root at first. -/
theorem free_ofRoot (x : String) : x ∈ (Draft.ofRoot x).entered ∧
    ∀ k n, ((x, k), n) ∉ (Draft.ofRoot x).graph.positions := by
  refine ⟨by simp [Draft.ofRoot], fun k n h => ?_⟩
  rw [Draft.ofRoot, Build.ofRoot_eq] at h
  cases h

theorem exists_ofProgram (h : p.Linkable) : ∃ r, ofProgram p true = .ok r := by
  obtain ⟨⟨_, d⟩, hd⟩ := (makes_ofProgram p _ (Build.within_size _ _) (Draft.valid_ofRoot loopName)
    (free_ofRoot loopName)).1 h
  refine ⟨(d.graph.settle, d.calls), Outcome.bind_eq_ok.2 ⟨_, hd, rfl⟩⟩

/-- What the construction of a graph leaves behind. -/
structure Finished (p : Program) (d : Draft) : Prop
    extends Build.Leads p.procedures (p.Called fun _ => True) (p.body.flatMap Instr.callees)
      (p.body.flatMap Instr.usedCalls).length
      ((List.range p.body.length).map fun k => (loopName, k)) (Draft.ofRoot loopName) d where
  valid : d.Valid
  root_bounded : ∃ b, d.graph.boundary? loopName = some b
  root_labels : WellLabelled p.body
  root_placed : ∀ k i, p.body[k]? = some i → d.Placed loopName k i

theorem exists_finished (h : ofProgram p true = .ok (g, calls)) :
    ∃ d, Finished p d ∧ g = d.graph.settle ∧ calls = d.calls := by
  obtain ⟨⟨_, d⟩, hd, h⟩ := Outcome.bind_eq_ok.1 h
  cases h
  obtain ⟨hleads, hv, hbound, hlabels, hplaced⟩ := (makes_ofProgram p _ (Build.within_size _ _)
    (Draft.valid_ofRoot loopName) (free_ofRoot loopName)).2 _ d hd
  exact ⟨d, ⟨hleads, hv, hbound, hlabels, hplaced⟩, rfl, rfl⟩

namespace Finished

variable {d : Draft}

theorem mem_ofRoot {x : String} : x ∈ (Draft.ofRoot loopName).entered ↔ x = loopName := by
  simp [Draft.ofRoot]

theorem opened_of_ne (h : Finished p d) {x : String} (hx : x ∈ d.entered) (hne : x ≠ loopName) :
    Build.Opened p.procedures (p.Called fun _ => True) d x :=
  h.opened x hx fun hmem => hne (mem_ofRoot.1 hmem)

/-- Every procedure is entered and supplied that is called through procedures not named as the loop
body. -/
theorem entered_of_called_through (h : Finished p d) {through : String → Prop}
    (hthrough : ∀ x, through x → p.procedures.contains x = true → x ≠ loopName) {x : String}
    (hx : p.Called through x) : x ∈ d.entered ∧ p.procedures.contains x = true := by
  induction hx with
  | direct hdirect => exact h.called _ (OrderedSet.mem_ofList.1 hdirect)
  | @step caller name f _ hcaller hf hcallee ih =>
    obtain ⟨-, -, f', hf', -, hcallees, -⟩ := h.opened_of_ne ih.1 (hthrough caller hcaller ih.2)
    cases hf.symm.trans hf'
    exact hcallees name (OrderedSet.mem_ofList.1 hcallee)

theorem ne_of_contains (hname : p.procedures.contains loopName = false) {x : String}
    (hx : p.procedures.contains x = true) : x ≠ loopName := by
  rintro rfl
  exact absurd (hname.symm.trans hx) (by simp)

/-- Every procedure that is called is entered and supplied. -/
theorem entered_of_called (h : Finished p d) (hname : p.procedures.contains loopName = false)
    {x : String} (hx : p.Called (fun _ => True) x) :
    x ∈ d.entered ∧ p.procedures.contains x = true :=
  h.entered_of_called_through (fun _ _ => ne_of_contains hname) hx

theorem opened_of_called (h : Finished p d) (hname : p.procedures.contains loopName = false)
    {x : String} (hx : p.Called (fun _ => True) x) :
    x ≠ loopName ∧ Build.Opened p.procedures (p.Called fun _ => True) d x := by
  obtain ⟨hin, hsupplied⟩ := h.entered_of_called hname hx
  exact ⟨ne_of_contains hname hsupplied, h.opened_of_ne hin (ne_of_contains hname hsupplied)⟩

/-- The procedures entered are those reached. -/
theorem mem_entered (h : Finished p d) (hname : p.procedures.contains loopName = false)
    {x : String} : x ∈ d.entered ↔ p.Reached x := by
  constructor
  · intro hx
    by_cases hne : x = loopName
    · exact Or.inl hne
    · exact Or.inr (h.opened_of_ne hx hne).reached
  · rintro (rfl | hx)
    · exact h.entered _ (mem_ofRoot.2 rfl)
    · exact (h.entered_of_called hname hx).1

theorem linkable (h : Finished p d) (hname : p.procedures.contains loopName = false) :
    p.Linkable := by
  refine ⟨h.root_labels, fun x hx => ?_⟩
  obtain ⟨-, -, -, f, hf, hlabels, -⟩ := h.opened_of_called hname hx
  exact ⟨f, hf, hlabels⟩

/-- The bodies in the graph are those reached. -/
theorem mem_names (h : Finished p d) (hname : p.procedures.contains loopName = false) {x : String} :
    x ∈ d.graph.boundaries.names ↔ p.Reached x := by
  rw [← h.mem_entered hname]
  constructor
  · intro hx
    obtain ⟨⟨y, b⟩, hmem, rfl⟩ := List.mem_map.1 hx
    exact (h.valid.boundary y b (NameMap.find?_of_mem hmem)).1
  · intro hx
    refine NameMap.mem_names_of_contains (Option.isSome_iff_exists.2 ?_)
    by_cases hne : x = loopName
    · rw [hne]
      exact h.root_bounded
    · exact (h.opened_of_ne hx hne).bounded

/-- The procedures called at the call sites are those reached. -/
theorem mem_reachable (h : Finished p d) (hname : p.procedures.contains loopName = false)
    {x : String} : x ∈ d.calls.reachable ↔ p.Reached x := by
  have hroot : d.calls.root = loopName := h.root_eq.2
  rw [CallGraph.reachable, OrderedSet.mem_ofList, List.mem_cons, hroot, List.mem_map]
  constructor
  · rintro (rfl | ⟨s, hs, rfl⟩)
    · exact Or.inl rfl
    · obtain ⟨b, hb, -⟩ := (h.valid.site s hs).joined
      exact (h.mem_entered hname).1 (h.valid.boundary _ b hb).1
  · rintro (rfl | hx)
    · exact Or.inl rfl
    · refine Or.inr (h.found x (h.entered_of_called hname hx).1 fun hmem => ?_)
      exact (h.opened_of_called hname hx).1 (mem_ofRoot.1 hmem)

/-- Every position of a body that is reached has its node. -/
theorem placed (h : Finished p d) (hname : p.procedures.contains loopName = false) {x : String}
    (hx : p.Reached x) {k : Nat} {i : Instr} (hi : (p.bodyOf x)[k]? = some i) : d.Placed x k i := by
  rcases hx with rfl | hx
  · exact h.root_placed k i (by simpa [Program.bodyOf] using hi)
  · obtain ⟨hne, -, -, f, hf, -, -, hplaced⟩ := h.opened_of_called hname hx
    exact hplaced k i (by simpa [Program.bodyOf, hne, hf] using hi)

/-- The calls in the bodies that are entered. -/
theorem total_entered (h : Finished p d) (hname : p.procedures.contains loopName = false)
    (calls : Instr → List String) :
    (d.graph.boundaries.names.flatMap fun x => (p.bodyOf x).flatMap calls).length =
      (p.body.flatMap calls).length + p.procedures.total calls d.entered := by
  have hperm : d.graph.boundaries.names.Perm d.entered.toList := by
    refine (List.perm_ext_iff_of_nodup (NameMap.nodup_names _)
      (OrderedSet.nodup_toList _)).2 fun x => ?_
    exact (h.mem_names hname).trans (h.mem_entered hname).symm
  have hroot : loopName ∈ d.entered.toList := (h.mem_entered hname).2 (Or.inl rfl)
  have hnone : p.procedures.find? loopName = none := by
    simpa [NameMap.contains] using hname
  -- Both sums agree on the names other than that of the loop body.
  have hrest : ∀ x ∈ d.entered.toList.erase loopName, ((p.bodyOf x).flatMap calls).length =
      (p.procedures.find? x).elim 0 fun f => (f.body.flatMap calls).length := by
    intro x hx
    have hne : x ≠ loopName := ((OrderedSet.nodup_toList _).mem_erase_iff.1 hx).1
    rw [Program.bodyOf, if_neg hne]
    cases p.procedures.find? x <;> rfl
  have hbody : p.bodyOf loopName = p.body := if_pos rfl
  rw [List.length_flatMap, (hperm.map _).sum_eq, NameMap.total,
    ← List.sum_map_erase (fun x => ((p.bodyOf x).flatMap calls).length) hroot,
    ← List.sum_map_erase (fun x => (p.procedures.find? x).elim 0 _) hroot,
    List.map_congr_left hrest, hnone, hbody]
  simp

end Finished

/-- **The graph of a program has a boundary for every procedure that is called, directly or through
procedures that are not named as the loop body.** -/
theorem contains_of_called (h : ofProgram p true = .ok (g, calls)) {name : String}
    (hname : p.Called (· ≠ loopName) name) (hne : name ≠ loopName) :
    g.boundaries.contains name = true ∧ ∃ f, p.procedures.find? name = some f := by
  obtain ⟨d, hd, rfl, -⟩ := exists_finished h
  obtain ⟨hin, -⟩ := hd.entered_of_called_through (fun _ hcaller _ => hcaller) hname
  obtain ⟨-, hbound, f, hf, -⟩ := hd.opened_of_ne hin hne
  rw [boundaries_settle]
  exact ⟨Option.isSome_iff_exists.2 hbound, f, hf⟩

/-- No procedure is supplied under the name of the loop body. -/
theorem total_ofRoot (hname : p.procedures.contains loopName = false)
    (calls : Instr → List String) :
    p.procedures.total calls (Draft.ofRoot loopName).entered = 0 := by
  have hnone : p.procedures.find? loopName = none := by simpa [NameMap.contains] using hname
  have hroot : (Draft.ofRoot loopName).entered.toList = [loopName] := rfl
  rw [NameMap.total, hroot, List.map_singleton, hnone]
  rfl

theorem position?_of_mem (hnodup : (g.positions.map Prod.fst).Nodup) {x : String} {k n : Nat}
    (h : ((x, k), n) ∈ g.positions) : g.position? x k = some n := by
  obtain ⟨before, after, heq⟩ := List.append_of_mem h
  refine List.lookup_eq_some_iff.2 ⟨before, after, heq, fun q hq => bne_iff_ne.2 fun hkey => ?_⟩
  rw [heq, List.map_append, List.nodup_append] at hnodup
  exact hnodup.2.2 (x, k) (hkey ▸ List.mem_map_of_mem hq) (x, k) (by simp) rfl

theorem CapturedAs.captureOf_eq {s : CallSite} {x : String} (h : g.CapturedAs s x) :
    g.captureOf s = some x := by
  rw [captureOf, instr?, h.declare]
  rfl

theorem Finished.captures_apart {d : Draft} (h : Finished p d) :
    (d.kept.map d.graph.captureOf).Nodup := by
  rw [List.Nodup, List.pairwise_map]
  refine h.valid.captures.apart.imp_of_mem fun {s t} hs ht hne heq => hne ?_
  obtain ⟨k, -, hk⟩ := h.valid.captures.named s hs
  obtain ⟨k', -, hk'⟩ := h.valid.captures.named t ht
  rw [hk.captureOf_eq, hk'.captureOf_eq, Option.some.injEq] at heq
  rw [instr?, instr?, hk.declare, hk'.declare, heq]
  rfl

/-- **The graph of a program can be built exactly if every procedure that is called is supplied and
the labels of all bodies are in order. It then holds the bodies that are reached, with all their
calls joined to the callees.** -/
theorem ofProgram_stitched (p : Program) (hname : p.procedures.contains loopName = false) :
    ((∃ r, ofProgram p true = .ok r) ↔ p.Linkable) ∧
      ∀ g calls, ofProgram p true = .ok (g, calls) → Stitched p g calls := by
  refine ⟨⟨fun ⟨⟨g, calls⟩, h⟩ => ?_, exists_ofProgram⟩, fun g calls h => ?_⟩
  · obtain ⟨d, hd, -⟩ := exists_finished h
    exact hd.linkable hname
  · obtain ⟨d, hd, rfl, rfl⟩ := exists_finished h
    have hnested : nested d.graph.settle d.calls = d.kept := by
      simp only [nested, Draft.kept, isPlaced, positions_settle]
    have hcaptureOf : d.graph.settle.captureOf = d.graph.captureOf := by
      funext s
      simp only [captureOf, instr?, nodes_settle]
    refine ⟨fun x => ?_, fun x => hd.mem_reachable hname, fun x hx k i hi => ?_, fun n x i hn => ?_,
      ?_, ?_, fun s hs => ?_, ?_, fun s hs => ?_, ?_⟩
    · rw [boundaries_settle]
      exact hd.mem_names hname
    · obtain ⟨n, kind, hmem, hnode, hstands⟩ := hd.placed hname hx hi
      rw [nodes_settle]
      refine ⟨n, kind, ?_, hnode, hstands⟩
      rw [position?, positions_settle]
      exact position?_of_mem hd.valid.mapped hmem
    · rw [nodes_settle] at hn
      exact hd.valid.callFree n x i hn
    · have hlength := hd.sites_length
      rw [total_ofRoot hname] at hlength
      rw [boundaries_settle, hd.total_entered hname]
      simpa [Draft.ofRoot] using hlength
    · rw [List.Nodup, List.pairwise_map]
      exact hd.valid.apart.imp fun h => h.2
    · obtain ⟨hnode, henter, hleave, -, b, hb, -⟩ := hd.valid.site s hs
      obtain ⟨-, hstart, hstop⟩ := hd.valid.boundary _ b hb
      rw [nodes_settle, boundary?, boundaries_settle]
      exact ⟨hnode, henter, hleave, b, hb, hstart, hstop, hd.valid.mem_edges_site hs hb⟩
    · have hlength := hd.kept_length
      rw [total_ofRoot hname] at hlength
      rw [hnested, boundaries_settle, hd.total_entered hname]
      simpa [Draft.ofRoot, Draft.kept] using hlength
    · rw [hnested] at hs
      obtain ⟨k, -, hk⟩ := hd.valid.captures.named s hs
      rw [hcaptureOf]
      refine ⟨k, hk.captureOf_eq, ?_, ?_⟩
      · rw [nodes_settle]
        exact hk.declare
      · rw [nodes_settle]
        exact hk.assign
    · rw [hnested, hcaptureOf]
      exact hd.captures_apart

/-- Two procedures that call each other, calls within the arguments of calls, and a call in an
instruction that is never run. -/
theorem ofProgram_stitched_mutual :
    let p : Program := { Program.ofBody "i" [.jump "end", .assign (.var "x") (.call "f" [.var "i"]),
      .label "end", .call "f" [.call "g" [.call "g" [.var "i"]]]] with
      procedures := .ofList [("f", ⟨"f", ["a"], [.assign (.var "y") (.call "g" [.var "a"])]⟩),
        ("g", ⟨"g", ["b"], [.call "f" [.call "f" [.var "b"]]]⟩)] }
    p.procedures.contains loopName = false ∧
      ∃ g calls, ofProgram p true = .ok (g, calls) ∧ calls.sites.length = 7 ∧ Stitched p g calls := by
  intro p
  have hname : p.procedures.contains loopName = false := by decide +kernel
  have hrun : (ofProgram p true).toOption.map (fun r => r.2.sites.length) = some 7 := by
    decide +kernel
  cases h : ofProgram p true with
  | error e =>
    rw [h] at hrun
    cases hrun
  | ok r =>
    rw [h] at hrun
    exact ⟨hname, r.1, r.2, rfl, Option.some.inj hrun, (ofProgram_stitched p hname).2 r.1 r.2 h⟩

end FlowGraph

end ParLoop
