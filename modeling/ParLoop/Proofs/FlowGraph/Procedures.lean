import ParLoop.Proofs.FlowGraph.Calls

/-!
# The construction of a graph with its procedures

What is left of an instruction when its calls are taken out stands for it in the graph, unless the
call site does (`makes_hoistInstr`). So a body is built with all its calls (`makes_addBody`), and so
are the bodies of the procedures it calls, down to any depth (`stitches_linkingTo`).
-/

namespace ParLoop.Build

variable {procedures : NameMap Procedure} {R : String → Prop} {G : Prop} {depth : Nat}
  {linking : Linking}

/-! ### Instructions -/

/-- What is left of an instruction stands for it, unless the call site does. -/
def Leaves (x : String) (k : Nat) (i : Instr) (left : Option Instr) (d : Draft) : Prop :=
  match left with
  | none => (∃ f es, i = .call f es) ∧ d.Placed x k i
  | some left => left.hasCall = false ∧ left.outline = i.outline ∧ (∀ f es, i ≠ .call f es) ∧
      Free x k d

/-- An instruction that is no call is left with what its expressions have become. -/
theorem makes_left {α : Type} {x : String} {k : Nat} {i : Instr} {m : Build α}
    {called : List String} {used : Nat} {Q : α → Draft → Prop} (made : α → Instr)
    (hm : Makes procedures R G depth (fun _ => True) m called used [] Q)
    (hmade : ∀ a d, Q a d → (made a).hasCall = false ∧ (made a).outline = i.outline)
    (hcall : ∀ f es, i ≠ .call f es) :
    Makes procedures R G depth (Free x k) (m >>= fun a => pure (some (made a))) called used
      [(x, k)] (Leaves x k i) := by
  refine ((hm.keep (stable_free x k)).bind_nil fun a => makes_pure fun d h => ?_).perm (.refl _) rfl
    fun q hq => (by cases hq)
  exact ⟨(hmade a d h.1).1, (hmade a d h.1).2, hcall, h.2⟩

/-- An instruction without expressions is left as it is. -/
theorem makes_untouched {x : String} {k : Nat} {i : Instr} (hfree : i.hasCall = false)
    (hcall : ∀ f es, i ≠ .call f es) :
    Makes procedures R G depth (Free x k) (pure (some i)) [] 0 [(x, k)] (Leaves x k i) :=
  Makes.perm (makes_pure fun _ h => ⟨hfree, rfl, hcall, h⟩) (.refl _) rfl fun q hq => (by cases hq)

theorem makes_hoistInstr (hl : Stitches procedures R G depth linking) {x : String} {k : Nat}
    {i : Instr} (hR : ∀ y ∈ i.callees, R y) :
    Makes procedures R G depth (Free x k) (hoistInstr linking x k i) i.callees i.usedCalls.length
      [(x, k)] (Leaves x k i) := by
  cases i with
  | declare y => exact makes_untouched rfl (by rintro f es ⟨⟩)
  | label l => exact makes_untouched rfl (by rintro f es ⟨⟩)
  | jump l => exact makes_untouched rfl (by rintro f es ⟨⟩)
  | branch c l =>
    have hc : (Instr.branch c l).callees = c.callees := by
      simp [Instr.callees, Instr.expressions]
    refine (makes_left (fun c' => .branch c' l)
      (makes_hoist hl x fun y hy => hR y (hc ▸ hy)) (fun c' _ hc' => ⟨?_, rfl⟩)
      (by rintro f es ⟨⟩)).perm ?_ ?_ fun q hq => hq
    · simpa [Instr.hasCall, Instr.expressions] using hc'
    · rw [hc]
    · simp [Instr.usedCalls, Instr.expressions]
  | call f es =>
    have hf : R f := hR f (by simp [Instr.callees])
    have hes := makes_hoistList fun e he => makes_hoist hl x fun y hy => hR y (by
      simp only [Instr.callees, Instr.expressions, List.mem_append, List.mem_flatMap]
      exact Or.inr ⟨e, he, hy⟩)
    refine ((hes.keep (stable_free x k)).bind fun es' => Makes.assume_and fun hes' =>
      (makes_call hl hf hes'.2 (stable_free x k) (completes_position x f k es)).imp
        (fun _ _ h => h) fun left d h => ?_).perm ?_ rfl fun q hq => hq
    · rw [h.1]
      exact ⟨⟨f, es, rfl⟩, h.2⟩
    · exact List.perm_append_comm
  | assign target value =>
    have hv : ∀ y ∈ value.callees, R y := fun y hy => hR y (by
      cases target <;> simp [Instr.callees, Instr.expressions, hy])
    cases target with
    | access a is =>
      have haccess : (Expr.access a is).callees = is.flatMap Expr.callees := Expr.callees_eq _
      have his := makes_hoistList fun e he => makes_hoist hl x fun y hy => hR y (by
        simp only [Instr.callees, Instr.expressions, List.flatMap_cons, haccess, List.mem_append,
          List.mem_flatMap]
        exact Or.inr (Or.inl ⟨e, he, hy⟩))
      have hm : hoistInstr linking x k (.assign (.access a is) value) =
          hoistList linking x is >>= fun is' => hoist linking x value >>= fun v =>
            pure (some (.assign (.access a is') v)) := by
        simp [hoistInstr, hoist]
      rw [hm]
      refine ((his.keep (stable_free x k)).bind fun is' => Makes.assume_and fun his' =>
        makes_left (fun v => .assign (.access a is') v) (makes_hoist hl x hv)
          (fun v _ hv' => ⟨?_, rfl⟩) (by rintro f es ⟨⟩)).perm ?_ ?_ fun q hq => hq
      · have hcall : (Expr.access a is').hasCall = false := by
          rw [Expr.hasCall_eq]
          simpa [Expr.calledProcedure?, Expr.children] using his'.2
        simp [Instr.hasCall, Instr.expressions, hcall, hv']
      · simp [Instr.callees, Instr.expressions, haccess]
      · simp [Instr.usedCalls, Instr.expressions, haccess]
    | _ =>
      refine (makes_left (fun v => .assign _ v) (makes_hoist hl x hv)
        (fun v _ hv' => ⟨?_, rfl⟩) (by rintro f es ⟨⟩)).perm ?_ ?_ fun q hq => hq
      · simpa [Instr.hasCall, Instr.expressions] using hv'
      · simp [Instr.callees, Instr.expressions]
      · simp [Instr.usedCalls, Instr.expressions]

/-! ### Bodies -/

/-- What is left of an instruction is appended and takes its position. -/
theorem step_drawn {d : Draft} {x : String} {k : Nat} {left : Instr} (hd : d.Valid)
    (hfree : Free x k d) (hleft : left.hasCall = false) {cursor : Option Nat}
    (hcursor : ∀ n, cursor = some n → n = d.graph.size) :
    let d' := { drawn x k left d with cursor := cursor }
    Leads procedures R [] 0 [(x, k)] d d' ∧ d'.Valid ∧
      ((x, k), d.graph.size) ∈ d'.graph.positions ∧
      d'.graph.nodes[d.graph.size]? = some ⟨x, .instr left⟩ := by
  have hq := d.quiet_appended x (.instr left)
  have hw : (d.appended x (.instr left)).WellFormed := hd.appendedInstr hleft
  have hnode := d.getElem?_appended x (.instr left)
  have hfree₁ : (d.appended x (.instr left)).graph.position? x k = none := by
    rw [FlowGraph.position?, hq.positions_eq]
    exact hfree.free
  have hkept : ((d.appended x (.instr left)).mapped x k d.graph.size).kept = d.kept := by
    rw [Draft.kept_mapped hfree₁, hq.kept_eq]
    refine List.filter_eq_self.2 fun s hs => bne_iff_ne.2 ?_
    obtain ⟨es, hes⟩ := (hd.site s (List.mem_of_mem_filter hs)).node
    exact (FlowGraph.lt_size_of_getElem? hes).ne
  have hstep : Step procedures R d.graph.size 0 0 [(x, k)] d
      ((d.appended x (.instr left)).mapped x k d.graph.size) := by
    refine (step_of_quiet hq d.graph.size).mapped hfree₁ le_rfl ?_
    rw [hkept, hq.kept_eq]
  have hnode' : ((d.appended x (.instr left)).mapped x k d.graph.size).graph.nodes[d.graph.size]? =
      some ⟨x, .instr left⟩ := by
    rw [Draft.mapped, (FlowGraph.mapPosition_frame ..).2.1]
    exact hnode
  rw [Draft.drawn_eq left hfree.free]
  refine ⟨⟨hstep.withCursor cursor, by simp, fun y hy hnew => absurd hy hnew⟩, ⟨?_, ?_⟩, ?_, hnode'⟩
  · refine (hw.withPosition hfree.entered (FlowGraph.lt_size_of_getElem? hnode)
      hfree₁).withCursor fun n hn => ?_
    rw [hcursor n hn]
    exact ⟨_, hnode', rfl⟩
  · have hcaptures : ((d.appended x (.instr left)).mapped x k d.graph.size).Captures d.kept :=
      hd.captures.mono hstep.nodes fun _ => le_rfl
    exact hkept ▸ ⟨hcaptures.named, hcaptures.apart⟩
  · rw [Draft.mapped_of_free hfree₁]
    simp

/-- The labels and the jumps of some instructions have their nodes. -/
structure Marked (pre : List Instr) (marks : Landmarks) (g : FlowGraph) : Prop where
  labels : ∀ l, (∃ n, (l, n) ∈ marks.labels) ↔ .label l ∈ pre
  jumps : ∀ l, (∃ n, (n, l) ∈ marks.jumps) ↔ ∃ i ∈ pre, i.jumpTarget? = some l
  labelNode : ∀ l n, (l, n) ∈ marks.labels → ∃ y j, g.nodes[n]? = some ⟨y, .instr j⟩
  jumpNode : ∀ n l, (n, l) ∈ marks.jumps → ∃ y j, g.nodes[n]? = some ⟨y, .instr j⟩
  once : LabelsOnce pre

theorem Marked.mono {pre : List Instr} {marks : Landmarks} {g g' : FlowGraph}
    (h : Marked pre marks g) (hg : g.Extends g') : Marked pre marks g' where
  labels := h.labels
  jumps := h.jumps
  labelNode l n hn := (h.labelNode l n hn).imp fun _ hy => hy.imp fun _ hj => hg _ _ hj
  jumpNode n l hn := (h.jumpNode n l hn).imp fun _ hy => hy.imp fun _ hj => hg _ _ hj
  once := h.once

/-- An instruction is marked at its node. -/
theorem Marked.add {pre : List Instr} {marks : Landmarks} {g : FlowGraph} {i : Instr}
    (h : Marked pre marks g) (node : Nat) (hnew : marks.repeated? i = none)
    (hnode : (∀ f es, i ≠ .call f es) → ∃ y j, g.nodes[node]? = some ⟨y, .instr j⟩) :
    Marked (pre ++ [i]) (marks.add node i) g := by
  refine ⟨fun l => ?_, fun l => ?_, fun l n hn => ?_, fun n l hn => ?_, ?_⟩
  · simp only [Landmarks.mem_labels_add, exists_or, h.labels, List.mem_append,
      List.mem_singleton, exists_and_left, exists_eq, and_true, @eq_comm _ (Instr.label l)]
  · simp only [Landmarks.mem_jumps_add, exists_or, h.jumps, List.mem_append, List.mem_singleton,
      exists_and_left, exists_eq, and_true, or_and_right, exists_eq_left]
  · rcases Landmarks.mem_labels_add.1 hn with hn | ⟨rfl, rfl⟩
    · exact h.labelNode l n hn
    · exact hnode fun f es heq => by cases heq
  · rcases Landmarks.mem_jumps_add.1 hn with hn | ⟨hl, rfl⟩
    · exact h.jumpNode n l hn
    · exact hnode fun f es heq => by rw [heq] at hl; cases hl
  · refine labelsOnce_append_singleton h.once fun l hl hmem => ?_
    obtain ⟨n, hn⟩ := (h.labels l).2 hmem
    exact Landmarks.notMem_labels (hl ▸ hnew) n hn

/-- A label is not repeated if it stands once. -/
theorem Marked.repeated?_eq_none {pre : List Instr} {marks : Landmarks} {g : FlowGraph} {i : Instr}
    (h : Marked pre marks g) (honce : LabelsOnce (pre ++ [i])) : marks.repeated? i = none := by
  cases i with
  | label l =>
    rw [Landmarks.repeated?, if_neg]
    intro hsome
    obtain ⟨⟨l', n⟩, hn, heq⟩ := List.lookup_isSome_iff.1 hsome
    obtain rfl : l = l' := by simpa using heq
    -- The label would stand at an earlier position too.
    obtain ⟨k, hk⟩ := List.getElem?_of_mem ((h.labels l).1 ⟨n, hn⟩)
    have hlt : k < pre.length := (List.getElem?_eq_some_iff.1 hk).1
    have heq := honce k pre.length l (by rwa [List.getElem?_append_left hlt]) (by simp)
    omega
  | _ => rfl

/-- Some instructions of a body are drawn. -/
structure Underway (x : String) (pre : List Instr) (marks : Landmarks) (d : Draft) : Prop where
  entered : x ∈ d.entered
  positions : ∀ k n, ((x, k), n) ∈ d.graph.positions → k < pre.length
  marked : Marked pre marks d.graph
  placed : ∀ k i, pre[k]? = some i → d.Placed x k i

theorem Underway.free {x : String} {pre : List Instr} {marks : Landmarks} {d : Draft}
    (h : Underway x pre marks d) : Free x pre.length d := by
  refine ⟨h.entered, List.lookup_eq_none_iff.2 fun q hq => bne_iff_ne.2 fun heq => ?_⟩
  have hlt := h.positions pre.length q.2 (by rw [heq]; exact hq)
  exact Nat.lt_irrefl _ hlt

/-- The next instruction takes its position. -/
theorem Underway.next {x : String} {pre : List Instr} {marks marks' : Landmarks} {d d' : Draft}
    {i : Instr} {called : List String} {used : Nat} (h : Underway x pre marks d)
    (hl : Leads procedures R called used [(x, pre.length)] d d')
    (hmarked : Marked (pre ++ [i]) marks' d'.graph) (hplaced : d'.Placed x pre.length i) :
    Underway x (pre ++ [i]) marks' d' := by
  obtain ⟨more, hmore, hnew⟩ := hl.positions
  refine ⟨hl.entered x h.entered, fun k n hk => ?_, hmarked, fun k j hj => ?_⟩
  · rw [List.length_append, List.length_singleton]
    rw [hmore] at hk
    rcases List.mem_append.1 hk with hk | hk
    · exact Nat.lt_succ_of_lt (h.positions k n hk)
    · rcases (hnew _ hk).2 with hout | hhere
      · exact absurd h.entered hout
      · cases List.mem_singleton.1 hhere
        exact Nat.lt_succ_self _
  · rcases getElem?_append_singleton.1 hj with hj | ⟨rfl, rfl⟩
    · exact placed_mono (h.placed k j hj) hl.nodes ⟨more, hmore⟩
    · exact hplaced

/-- What is left of an instruction is put to its position. -/
theorem makes_finish {x : String} {pre : List Instr} {marks : Landmarks} {i : Instr}
    (hG : G → LabelsOnce (pre ++ [i])) (left : Option Instr) :
    Makes procedures R G depth
      (fun d => Leaves x pre.length i left d ∧ Marked pre marks d.graph)
      (finish x marks i pre.length left) [] 0 [(x, pre.length)]
      fun marks' d => Marked (pre ++ [i]) marks' d.graph ∧ d.Placed x pre.length i := by
  rintro d _ hd ⟨hleaves, hmarked⟩
  cases left with
  | none =>
    -- A call made for its effects is no label and no jump.
    obtain ⟨⟨f, es, rfl⟩, hplaced⟩ := hleaves
    refine ⟨fun _ => ⟨(marks, d), rfl⟩, fun a d' h => ?_⟩
    cases h
    have hquiet : Leads procedures R [] 0 [] d d := leads_of_quiet d.quiet_refl
    refine ⟨{ hquiet with positions := ⟨[], by simp, by simp⟩ }, hd, ?_, hplaced⟩
    exact hmarked.add 0 rfl fun h => absurd rfl (h f es)
  | some left =>
    obtain ⟨hleft, houtline, hcall, hfree⟩ := hleaves
    cases hrepeated : marks.repeated? i with
    | some l =>
      refine ⟨fun h => ?_, fun a d' h => ?_⟩
      · rw [hmarked.repeated?_eq_none (hG h)] at hrepeated
        cases hrepeated
      · simp only [finish, hrepeated] at h
        cases h
    | none =>
      have hcursor : ∀ n, (if i.fallsThrough then some d.graph.size else none) = some n →
          n = d.graph.size := by
        intro n hn
        split at hn <;> cases hn
        rfl
      obtain ⟨hleads, hv, hposition, hnode⟩ := step_drawn hd hfree hleft hcursor
      have hok : finish x marks i pre.length (some left) d = .ok (marks.add d.graph.size i,
          { drawn x pre.length left d with
            cursor := if i.fallsThrough then some d.graph.size else none }) := by
        simp only [finish, hrepeated]
      refine ⟨fun _ => ⟨_, hok⟩, fun a d' h => ?_⟩
      cases hok.symm.trans h
      refine ⟨hleads, hv, (hmarked.mono hleads.nodes).add _ hrepeated fun _ => ⟨_, _, hnode⟩,
        d.graph.size, .instr left, hposition, hnode, ?_⟩
      cases i with
      | call f es => exact absurd rfl (hcall f es)
      | _ => exact houtline

/-- **One more instruction of a body.** -/
theorem makes_addInstr (hl : Stitches procedures R G depth linking) {x : String} {pre : List Instr}
    {marks : Landmarks} {i : Instr} (hG : G → LabelsOnce (pre ++ [i])) (hR : ∀ y ∈ i.callees, R y) :
    Makes procedures R G depth (Underway x pre marks)
      (addInstr (some linking) x marks (i, pre.length)) i.callees i.usedCalls.length
      [(x, pre.length)] (Underway x (pre ++ [i])) := by
  rw [addInstr_some_eq]
  have hmake : Makes procedures R G depth
      (fun d => Free x pre.length d ∧ Marked pre marks d.graph)
      (hoistInstr linking x pre.length i >>= finish x marks i pre.length) i.callees
      i.usedCalls.length [(x, pre.length)]
      fun marks' d => Marked (pre ++ [i]) marks' d.graph ∧ d.Placed x pre.length i := by
    refine (((makes_hoistInstr hl hR).frame fun d d' _ hleads hmarked =>
      hmarked.mono hleads.nodes).bind (makes_finish hG)).perm ?_ rfl (by simp)
    rw [List.append_nil]
  intro d hwithin hd hunder
  refine (hmake d hwithin hd ⟨hunder.free, hunder.marked⟩).imp_right fun h marks' d' hok => ?_
  obtain ⟨hleads, hv, hmarked, hplaced⟩ := h marks' d' hok
  exact ⟨hleads, hv, hunder.next hleads hmarked hplaced⟩

theorem makes_foldlM (hl : Stitches procedures R G depth linking) {x : String}
    {pre post : List Instr} {marks : Landmarks} (hG : G → LabelsOnce (pre ++ post))
    (hR : ∀ y ∈ post.flatMap Instr.callees, R y) :
    Makes procedures R G depth (Underway x pre marks)
      ((post.zipIdx pre.length).foldlM (addInstr (some linking) x) marks)
      (post.flatMap Instr.callees) (post.flatMap Instr.usedCalls).length
      ((List.range post.length).map fun k => (x, pre.length + k))
      (Underway x (pre ++ post)) := by
  induction post generalizing pre marks with
  | nil =>
    rw [List.append_nil]
    exact makes_pure fun _ h => h
  | cons i post ih =>
    have hhead : G → LabelsOnce (pre ++ [i]) := by
      intro h k k' l hk hk'
      refine hG h k k' l ?_ ?_
      all_goals
        rw [show pre ++ i :: post = (pre ++ [i]) ++ post by simp]
        rwa [List.getElem?_append_left (List.getElem?_eq_some_iff.1 ‹_›).1]
    have htail : G → LabelsOnce ((pre ++ [i]) ++ post) := by simpa using hG
    rw [List.zipIdx_cons, List.foldlM_cons, List.flatMap_cons, List.flatMap_cons,
      List.length_append, show pre ++ i :: post = (pre ++ [i]) ++ post by simp,
      show pre.length + 1 = (pre ++ [i]).length by simp]
    refine ((makes_addInstr hl hhead fun y hy => hR y (by simp [hy])).bind fun marks' =>
      ih htail fun y hy => hR y (by simp [hy])).perm (.refl _) rfl fun q hq => ?_
    simp only [List.mem_append, List.mem_singleton, List.mem_map, List.mem_range,
      List.length_append, List.length_cons, List.length_nil] at hq ⊢
    rcases hq with rfl | ⟨k, hk, rfl⟩
    · exact ⟨0, by omega, rfl⟩
    · exact ⟨k + 1, by omega, congrArg (Prod.mk x) (by omega)⟩

/-- A jump leads to its label. -/
theorem makes_addJump {x : String} {marks : Landmarks} {pre : List Instr} {node : Nat} {l : String}
    (hG : G → .label l ∈ pre) (hjump : (node, l) ∈ marks.jumps) :
    Makes procedures R G depth (fun d => Marked pre marks d.graph) (addJump x marks node l) [] 0 []
      fun _ d => .label l ∈ pre ∧ Marked pre marks d.graph := by
  intro d hwithin hd hmarked
  cases htarget : marks.labels.lookup l with
  | none =>
    refine ⟨fun h => ?_, fun a d' h => ?_⟩
    · obtain ⟨n, hn⟩ := (hmarked.labels l).2 (hG h)
      exact absurd (List.lookup_eq_none_iff.1 htarget _ hn) (by simp)
    · simp only [addJump, htarget] at h
      cases h
  | some target =>
    have hlabel : (l, target) ∈ marks.labels := by
      obtain ⟨before, after, heq, -⟩ := List.lookup_eq_some_iff.1 htarget
      rw [heq]
      simp
    have hedge : d.graph.Inner ⟨node, target⟩ := by
      obtain ⟨y, j, hj⟩ := hmarked.jumpNode node l hjump
      obtain ⟨y', j', hj'⟩ := hmarked.labelNode l target hlabel
      exact ⟨⟨_, hj, rfl⟩, _, hj', rfl⟩
    obtain ⟨hw, hq⟩ := hd.withEdge hedge
    have hok : addJump x marks node l d =
        .ok ((), { d with graph := d.graph.addEdge node target }) := by
      simp only [addJump, htarget]
      rfl
    refine ⟨fun _ => ⟨_, hok⟩, fun a d' h => ?_⟩
    cases hok.symm.trans h
    exact ⟨leads_of_quiet hq, ⟨hw, hq.captures hd.captures⟩, (hmarked.labels l).1 ⟨_, hlabel⟩,
      hmarked.mono hq.nodes⟩

theorem makes_jumps {x : String} {marks : Landmarks} {jumps : List (Nat × String)}
    {pre : List Instr} (hG : G → ∀ n l, (n, l) ∈ jumps → .label l ∈ pre)
    (hjumps : ∀ q ∈ jumps, q ∈ marks.jumps) :
    Makes procedures R G depth (fun d => Marked pre marks d.graph)
      (jumps.forM fun (node, l) => addJump x marks node l) [] 0 []
      fun _ _ => ∀ n l, (n, l) ∈ jumps → .label l ∈ pre := by
  induction jumps with
  | nil => exact makes_pure fun _ _ => by simp
  | cons q jumps ih =>
    obtain ⟨node, l⟩ := q
    have hrest := ih (fun h n l' hmem => hG h n l' (by simp [hmem]))
      fun q hq => hjumps q (by simp [hq])
    refine (makes_addJump (fun h => hG h node l (by simp)) (hjumps (node, l) (by simp))).bind
      fun _ => Makes.assume_and fun hl => hrest.imp (fun _ _ h => h) fun _ _ h n l' hmem => ?_
    rcases List.mem_cons.1 hmem with heq | hmem
    · cases heq
      exact hl
    · exact h n l' hmem

theorem stable_underway (x : String) (pre : List Instr) (marks : Landmarks) :
    Stable procedures R (Underway x pre marks) := by
  intro d d' _ _ hs h
  obtain ⟨more, hmore, hnew⟩ := hs.positions
  refine ⟨hs.entered x h.entered, fun k n hk => ?_, h.marked.mono hs.nodes, fun k i hi =>
    placed_mono (h.placed k i hi) hs.nodes ⟨more, hmore⟩⟩
  rw [hmore] at hk
  rcases List.mem_append.1 hk with hk | hk
  · exact h.positions k n hk
  · rcases (hnew _ hk).2 with hout | hhere
    · exact absurd h.entered hout
    · cases hhere

theorem underway_nil {x : String} {d : Draft} (hx : x ∈ d.entered)
    (hfree : ∀ k n, ((x, k), n) ∉ d.graph.positions) : Underway x [] {} d where
  entered := hx
  positions k n hk := absurd hk (hfree k n)
  marked := ⟨by simp, by simp, by simp, by simp, by simp [LabelsOnce]⟩
  placed := by simp

/-- Control starts at the start of a body. -/
theorem makes_start (x : String) {P : Draft → Prop} (hP : Stable procedures R P) :
    Makes procedures R G depth (fun d => x ∈ d.entered ∧ P d)
      (boundary x >>= fun b => moveTo (some b.start) >>= fun _ => pure b) [] 0 []
      fun b d => d.graph.boundary? x = some b ∧ P d := by
  refine .of_quiet fun d hd ⟨hx, hPd⟩ => ?_
  obtain ⟨hw, hq⟩ := hd.withProcedure hx
  have hb : (d.graph.addProcedure x).boundary? x =
      some (((d.graph.addProcedure x).boundary? x).getD ⟨0, 0⟩) := by
    rw [FlowGraph.boundary?_addProcedure, if_pos rfl, Option.getD_some]
  have hq' : d.Quiet { d with
      graph := d.graph.addProcedure x
      cursor := some (((d.graph.addProcedure x).boundary? x).getD ⟨0, 0⟩).start } := { hq with }
  refine ⟨_, _, rfl, hq', hw.withCursor fun n hn => ?_, hb, hP d _ _ _ (step_of_quiet hq' _) hPd⟩
  cases hn
  exact ⟨_, (hw.boundary x _ hb).2.1, rfl⟩

/-- Control goes on to the stop behind a body. -/
theorem makes_connect_stop {x : String} {b : Boundary} {P : Draft → Prop}
    (hP : Stable procedures R P) :
    Makes procedures R G depth (fun d => P d ∧ d.graph.boundary? x = some b) (connect b.stop) [] 0
      [] fun _ d => P d ∧ d.graph.boundary? x = some b := by
  refine .of_quiet fun d hd ⟨hPd, hb⟩ => ?_
  rw [connect_eq]
  cases hcursor : d.cursor with
  | none =>
    have hlinked : linked d.cursor b.stop d.graph = d.graph := by rw [hcursor]; rfl
    rw [← hcursor, hlinked]
    exact ⟨_, _, rfl, d.quiet_refl, hd.toWellFormed, hPd, hb⟩
  | some last =>
    have hlinked : linked d.cursor b.stop d.graph = d.graph.addEdge last b.stop := by
      rw [hcursor]
      rfl
    have hedge : d.graph.Inner ⟨last, b.stop⟩ :=
      ⟨hd.cursor last hcursor, _, (hd.boundary x b hb).2.2, rfl⟩
    obtain ⟨hw, hq⟩ := hd.withEdge hedge
    rw [← hcursor, hlinked]
    exact ⟨_, _, rfl, hq, hw, hP d _ _ _ (step_of_quiet hq _) hPd, hq.bounded x b hb⟩

/-- The jumps of a body lead to their labels, and so its labels are in order. -/
theorem makes_allJumps {x : String} {marks : Landmarks} {body : List Instr} {b : Boundary}
    (hG : G → WellLabelled body) :
    Makes procedures R G depth (fun d => Underway x body marks d ∧ d.graph.boundary? x = some b)
      (marks.jumps.forM fun (node, l) => addJump x marks node l) [] 0 []
      fun _ d => (∃ b, d.graph.boundary? x = some b) ∧ WellLabelled body ∧
        ∀ k i, body[k]? = some i → d.Placed x k i := by
  rintro d hwithin hd ⟨hunder, hb⟩
  have hlabels : G → ∀ n l, (n, l) ∈ marks.jumps → .label l ∈ body := fun h n l hmem => by
    obtain ⟨i, hi, hl⟩ := (hunder.marked.jumps l).1 ⟨n, hmem⟩
    exact (hG h).2 i hi l hl
  have hjumps : Makes procedures R G depth _ _ [] 0 [] _ :=
    makes_jumps (x := x) hlabels fun _ hq => hq
  refine (hjumps d hwithin hd hunder.marked).imp_right fun h a d' hok => ?_
  obtain ⟨hleads, hv, htargets⟩ := h a d' hok
  have hunder' := stable_underway x body marks d d' _ _ hleads.toStep hunder
  refine ⟨hleads, hv, ⟨b, hleads.bounded x b hb⟩, ⟨hunder.marked.once, fun i hi l hl => ?_⟩,
    hunder'.placed⟩
  obtain ⟨n, hn⟩ := (hunder.marked.jumps l).2 ⟨i, hi, hl⟩
  exact htargets n l hn

/-- **A body is built with all its calls.** -/
theorem makes_addBody (hl : Stitches procedures R G depth linking) {x : String}
    {entry body : List Instr} (hentry : ∀ i ∈ entry, i.hasCall = false)
    (hG : G → WellLabelled body) (hR : ∀ y ∈ body.flatMap Instr.callees, R y) :
    Makes procedures R G depth
      (fun d => x ∈ d.entered ∧ ∀ k n, ((x, k), n) ∉ d.graph.positions)
      (addBody (some linking) x entry body) (body.flatMap Instr.callees)
      (body.flatMap Instr.usedCalls).length ((List.range body.length).map fun k => (x, k))
      fun _ d => (∃ b, d.graph.boundary? x = some b) ∧ WellLabelled body ∧
        ∀ k i, body[k]? = some i → d.Placed x k i := by
  have hsplit : addBody (some linking) x entry body =
      (boundary x >>= fun b => moveTo (some b.start) >>= fun _ => pure b) >>= fun b =>
        entry.forM (emitInstr x) >>= fun _ =>
          body.zipIdx.foldlM (addInstr (some linking) x) {} >>= fun marks =>
            connect b.stop >>= fun _ =>
              marks.jumps.forM fun (node, l) => addJump x marks node l := by
    simp only [bind_assoc, pure_bind]
    rfl
  have hstart : Makes procedures R G depth
      (fun d => x ∈ d.entered ∧ ∀ k n, ((x, k), n) ∉ d.graph.positions)
      (boundary x >>= fun b => moveTo (some b.start) >>= fun _ => pure b) [] 0 []
      fun b d => d.graph.boundary? x = some b ∧ Underway x [] {} d :=
    (makes_start x (stable_underway x [] {})).imp
      (fun d _ h => ⟨h.1, underway_nil h.1 h.2⟩) fun _ _ h => h
  have hentries : ∀ b, Makes procedures R G depth
      (fun d => d.graph.boundary? x = some b ∧ Underway x [] {} d) (entry.forM (emitInstr x)) [] 0
      [] fun _ d => Underway x [] {} d ∧ d.graph.boundary? x = some b := fun b =>
    ((makes_forM fun i hi => makes_emitInstr (hentry i hi)).keep fun d d' _ _ hs h =>
      ⟨hs.bounded x b h.1, stable_underway x [] {} d d' _ _ hs h.2⟩).imp (fun _ _ h => h)
      fun _ _ h => h.2.symm
  have hfold : ∀ b, Makes procedures R G depth
      (fun d => Underway x [] {} d ∧ d.graph.boundary? x = some b)
      (body.zipIdx.foldlM (addInstr (some linking) x) {}) (body.flatMap Instr.callees)
      (body.flatMap Instr.usedCalls).length ((List.range body.length).map fun k => (x, k))
      fun marks d => Underway x body marks d ∧ d.graph.boundary? x = some b := fun b => by
    have honce : G → LabelsOnce ([] ++ body) := fun h => (hG h).1
    exact ((makes_foldlM hl honce hR).frame fun d d' _ hleads hb => hleads.bounded x b hb).perm
      (.refl _) rfl (by simp)
  rw [hsplit]
  refine (hstart.bind fun b => (hentries b).bind fun _ => (hfold b).bind_nil fun marks =>
    (makes_connect_stop (stable_underway x body marks)).bind fun _ => makes_allJumps hG).perm
      (.refl _) ?_ fun _ hq => hq
  omega

/-! ### Procedures that are called -/

theorem hasCall_of_mem_entryOf {f : Procedure} {i : Instr} (hi : i ∈ entryOf f) :
    i.hasCall = false := by
  rcases List.mem_cons.1 hi with rfl | hi
  · rfl
  · obtain ⟨q, -, hq⟩ := List.mem_flatMap.1 hi
    rcases List.mem_cons.1 hq with rfl | hq
    · rfl
    · rw [List.mem_singleton.1 hq]
      rfl

/-- **The bodies of the procedures are built down to any depth.** -/
theorem stitches_linkingTo (hsupplied : G → ∀ x, R x → ∃ f, procedures.find? x = some f)
    (hlabels : ∀ x f, R x → procedures.find? x = some f → G → WellLabelled f.body)
    (hclosed : ∀ x f, R x → procedures.find? x = some f → ∀ y ∈ f.body.flatMap Instr.callees, R y)
    (depth : Nat) : Stitches procedures R G depth (linkingTo procedures depth) := by
  induction depth with
  | zero =>
    refine ⟨rfl, hsupplied, fun x f hf hR d hx hwithin => ?_⟩
    exact (not_within_zero hwithin (by simp [NameMap.contains, hf]) hx).elim
  | succ depth ih =>
    refine ⟨rfl, hsupplied, fun x f hf hR d hx hwithin hd => ?_⟩
    have hv : Draft.Valid { d with entered := d.entered.insert x } :=
      ⟨hd.entering x, hd.captures.named, hd.captures.apart⟩
    have hfree : ∀ k n, ((x, k), n) ∉ d.graph.positions := fun k n hk =>
      hx (hd.position _ _ hk).1
    exact makes_addBody ih (fun i => hasCall_of_mem_entryOf) (hlabels x f hR hf)
      (hclosed x f hR hf) _ (hwithin.insert (by simp [NameMap.contains, hf]) hx) hv
      ⟨OrderedSet.mem_insert.2 (Or.inl rfl), hfree⟩

end ParLoop.Build
