import ParLoop.Proofs.FlowGraph.Makes

/-!
# Calls that are taken out of expressions

A linking that builds the bodies of the procedures (`Build.Stitches`) makes every call with its call
site (`makes_call`). So the calls of an expression are all made when they are taken out of it, and
none is left (`makes_hoist`).
-/

namespace ParLoop

namespace Build

variable {procedures : NameMap Procedure} {R : String → Prop} {G : Prop} {depth : Nat}
  {α β : Type} {d e d' : Draft}

/-! ### Calls -/

/-- A call site is appended and not yet joined. -/
structure Fresh (caller callee : String) (node : Nat) (d : Draft) : Prop where
  stands : ∃ es, d.graph.nodes[node]? = some ⟨caller, .invocation callee es⟩
  site : ∀ s ∈ d.calls.sites, s.node ≠ node
  free : d.graph.isPlaced node = false

theorem Fresh.step {caller callee : String} {node calls used : Nat} (h : Fresh caller callee node d)
    (hs : Step procedures R d.graph.size calls used [] d d') : Fresh caller callee node d' where
  stands := h.stands.imp fun es hes => hs.nodes _ _ hes
  site s hmem := by
    obtain ⟨es, hes⟩ := h.stands
    obtain ⟨more, hmore, hnew⟩ := hs.sites
    rw [hmore] at hmem
    rcases List.mem_append.1 hmem with hmem | hmem
    · exact h.site s hmem
    · have := hnew s hmem
      have := FlowGraph.lt_size_of_getElem? hes
      omega
  free := by
    obtain ⟨es, hes⟩ := h.stands
    obtain ⟨more, hmore, hnew⟩ := hs.positions
    have hfree := h.free
    simp only [FlowGraph.isPlaced, List.any_eq_false, beq_iff_eq] at hfree ⊢
    intro q hq
    rw [hmore] at hq
    rcases List.mem_append.1 hq with hq | hq
    · exact hfree q hq
    · have := (hnew q hq).1
      have := FlowGraph.lt_size_of_getElem? hes
      omega

theorem makes_bindArguments (caller callee : String) {arguments : List Expr}
    (h : ∀ e ∈ arguments, e.hasCall = false) :
    Makes procedures R G depth (fun _ => True) (bindArguments caller callee arguments) [] 0 []
      fun _ _ => True := by
  have hall : ∀ l : List (Expr × Nat), (∀ e ∈ l, e.1.hasCall = false) →
      Makes procedures R G depth (fun _ => True)
        (l.mapM fun q => bindArgument caller callee q.1 q.2) [] 0 [] fun _ _ => True := by
    intro l hl
    induction l with
    | nil => exact makes_pure fun _ _ => trivial
    | cons e l ih =>
      obtain ⟨e, k⟩ := e
      rw [List.mapM_cons]
      refine Makes.bind (.of_quiet fun d hd _ => ⟨_, _, bindArgument_eq caller callee e k d,
        (d.quiet_appended _ _).trans (Draft.quiet_appended _ _ _), ?_, trivial⟩) fun _ =>
        (ih fun e he => hl e (by simp [he])).bind fun _ => makes_pure fun _ _ => trivial
      have he := hl (e, k) (by simp)
      exact (hd.appendedInstr rfl).appendedInstr
        (by simpa [Instr.hasCall, Instr.expressions] using he)
  exact hall _ fun e he => h e.1 (List.fst_mem_of_mem_zipIdx he)

/-- A linking builds the body of every procedure that was not begun. -/
structure Stitches (procedures : NameMap Procedure) (R : String → Prop) (G : Prop) (depth : Nat)
    (linking : Linking) : Prop where
  procedures_eq : linking.procedures = procedures
  supplied : G → ∀ x, R x → ∃ f, procedures.find? x = some f
  enter : ∀ x f, procedures.find? x = some f → R x → ∀ d, x ∉ d.entered →
    Within procedures depth d → d.Valid →
    (G → ∃ r, linking.enter x f { d with entered := d.entered.insert x } = .ok r) ∧
    ∀ a d', linking.enter x f { d with entered := d.entered.insert x } = .ok (a, d') →
      Leads procedures R (f.body.flatMap Instr.callees) (f.body.flatMap Instr.usedCalls).length
        ((List.range f.body.length).map fun k => (x, k))
        { d with entered := d.entered.insert x } d' ∧ d'.Valid ∧
      (∃ b, d'.graph.boundary? x = some b) ∧ WellLabelled f.body ∧
      ∀ k i, f.body[k]? = some i → d'.Placed x k i

variable {linking : Linking}

/-- Reaching a callee enters it. It makes no call itself, and the calls of the callee count for the
callee. -/
theorem reach_spec (hl : Stitches procedures R G depth linking) {callee : String}
    {target : Procedure} (htarget : procedures.find? callee = some target) (hR : R callee)
    (hwithin : Within procedures depth d) (hd : d.Valid) :
    (G → ∃ r, reach linking callee target d = .ok r) ∧
    ∀ a d', reach linking callee target d = .ok (a, d') →
      Step procedures R d.graph.size 0 0 [] d d' ∧ d'.Valid ∧ callee ∈ d'.entered ∧
      ∀ x ∈ d'.entered, x ∉ d.entered → x = callee ∨ ∃ s ∈ d'.calls.sites, s.callee = x := by
  unfold reach
  by_cases hin : callee ∈ d.entered
  · rw [if_pos (OrderedSet.contains_iff.2 hin)]
    refine ⟨fun _ => ⟨_, rfl⟩, fun a d' h => ?_⟩
    cases h
    exact ⟨step_of_quiet d.quiet_refl _, hd, hin, fun x hx hnew => absurd hx hnew⟩
  · rw [if_neg fun hc => hin (OrderedSet.contains_iff.1 hc)]
    obtain ⟨hok, hstep⟩ := hl.enter callee target htarget hR d hin hwithin hd
    refine ⟨hok, fun a d' h => ?_⟩
    obtain ⟨hleads, hv, hbound, hlabels, hplaced⟩ := hstep a d' h
    have hself : callee ∈ d'.entered :=
      hleads.entered callee (OrderedSet.mem_insert.2 (Or.inl rfl))
    refine ⟨{
      root_eq := hleads.root_eq
      nodes := hleads.nodes
      bounded := hleads.bounded
      entered := fun x hx => hleads.entered x (OrderedSet.mem_insert.2 (Or.inr hx))
      sites := hleads.sites
      positions := ?_
      opened := fun x hx hnew => ?_
      sites_length := ?_
      kept_length := ?_ }, hv, hself, fun x hx hnew => ?_⟩
    · obtain ⟨more, hmore, hnew⟩ := hleads.positions
      refine ⟨more, hmore, fun q hq => ⟨(hnew q hq).1, Or.inl fun hold => ?_⟩⟩
      rcases (hnew q hq).2 with hout | hhere
      · exact hout (OrderedSet.mem_insert.2 (Or.inr hold))
      · obtain ⟨k, -, heq⟩ := List.mem_map.1 hhere
        rw [← heq] at hold
        exact hin hold
    · by_cases hx' : x = callee
      · rw [hx']
        exact ⟨hR, hbound, target, htarget, hlabels, hleads.called, hplaced⟩
      · exact hleads.opened x hx fun hmem => (OrderedSet.mem_insert.1 hmem).elim hx' hnew
    · have hcount := hleads.sites_length
      dsimp only at hcount
      rw [NameMap.total_insert hin htarget] at hcount
      omega
    · have hcount := hleads.kept_length
      rw [NameMap.total_insert hin htarget] at hcount
      have hkept : ({ d with entered := d.entered.insert callee } : Draft).kept = d.kept := rfl
      rw [hkept] at hcount
      omega
    · by_cases hx' : x = callee
      · exact Or.inl hx'
      · exact Or.inr (hleads.found x hx fun hmem => (OrderedSet.mem_insert.1 hmem).elim hx' hnew)

section Call

variable {caller callee : String} {next : Nat → Build β} {P : Draft → Prop} {used : Nat}
  {here : List (String × Nat)} {Q : β → Draft → Prop}

/-- What follows a call site that is appended: it is joined to its callee, and then its result is
kept or it takes its position. -/
def Completes (procedures : NameMap Procedure) (R : String → Prop) (caller callee : String)
    (next : Nat → Build β) (P : Draft → Prop) (used : Nat) (here : List (String × Nat))
    (Q : β → Draft → Prop) : Prop :=
  ∀ node d, d.Valid → P d → callee ∈ d.entered → Fresh caller callee node d →
    ∃ b d', (join caller callee node >>= next) d = .ok (b, d') ∧
      Step procedures R node 1 used here d d' ∧ d'.entered = d.entered ∧ d'.Valid ∧ Q b d' ∧
      ∃ s ∈ d'.calls.sites, s.callee = callee

theorem fresh_appended (hd : d.Valid) (caller callee : String) (bound : List Expr) :
    Fresh caller callee d.graph.size (d.appended caller (.invocation callee bound)) := by
  refine ⟨⟨bound, d.getElem?_appended _ _⟩, fun s hs => ?_, ?_⟩
  · obtain ⟨es, hes⟩ := (hd.site s hs).node
    exact (FlowGraph.lt_size_of_getElem? hes).ne
  · rw [FlowGraph.isPlaced, (d.quiet_appended _ _).positions_eq]
    simp only [List.any_eq_false, beq_iff_eq]
    exact fun q hq => (hd.position q.1 q.2 hq).2.ne

/-- A call site is appended, reaches its callee and is completed. -/
theorem makes_site (hl : Stitches procedures R G depth linking) {target : Procedure}
    (htarget : procedures.find? callee = some target) (hR : R callee) (hP : Stable procedures R P)
    (hnext : Completes procedures R caller callee next P used here Q) (bound : List Expr) :
    Makes procedures R G depth P (emit caller (.invocation callee bound) >>= fun node =>
      reach linking callee target >>= fun _ => join caller callee node >>= next) [callee] used here
      Q := by
  intro d hwithin hd hPd
  have hq := d.quiet_appended caller (.invocation callee bound)
  have hd₁ : (d.appended caller (.invocation callee bound)).Valid :=
    ⟨hd.appended rfl rfl nofun, hq.captures hd.captures⟩
  have hwithin₁ : Within procedures depth (d.appended caller (.invocation callee bound)) :=
    hwithin.mono fun _ hx => hx
  have hfirst : Step procedures R d.graph.size 0 0 [] d
      (d.appended caller (.invocation callee bound)) := step_of_quiet hq _
  obtain ⟨hok, hstep⟩ := reach_spec hl htarget hR hwithin₁ hd₁
  have hafter : ∀ a e, reach linking callee target (d.appended caller (.invocation callee bound)) =
      .ok (a, e) → ∃ b d', (join caller callee d.graph.size >>= next) e = .ok (b, d') ∧
        Leads procedures R [callee] used here d d' ∧ d'.Valid ∧ Q b d' := by
    intro a e he
    obtain ⟨hs, hv, hin, hfound⟩ := hstep a e he
    obtain ⟨b, d', hb, hs', hentered, hv', hQ, hsite⟩ := hnext d.graph.size e hv
      (hP _ e _ _ hs (hP d _ _ _ hfirst hPd)) hin ((fresh_appended hd caller callee bound).step hs)
    obtain ⟨more, hmore, -⟩ := hs'.sites
    have hall := (hfirst.trans hs hq.nodes.size_le).trans hs' le_rfl
    rw [Nat.zero_add, Nat.zero_add] at hall
    refine ⟨b, d', hb, ⟨hall, fun x hx => ?_, fun x hx hnew => ?_⟩, hv', hQ⟩
    · rw [List.mem_singleton.1 hx, hentered]
      exact ⟨hin, by simp [NameMap.contains, htarget]⟩
    · rw [hentered] at hx
      rcases hfound x hx hnew with rfl | ⟨s, hs, hx⟩
      · exact hsite
      · exact ⟨s, hmore ▸ List.mem_append_left _ hs, hx⟩
  constructor
  · intro hG
    obtain ⟨⟨a, e⟩, he⟩ := hok hG
    obtain ⟨b, d', hb, -⟩ := hafter a e he
    refine ⟨(b, d'), ?_⟩
    rw [bind_eq, emit_eq]
    show (reach linking callee target >>= fun _ => _) (d.appended caller _) = _
    rw [bind_eq, he]
    exact hb
  · intro b d' h
    obtain ⟨node, e, he, h⟩ := Outcome.stateT_bind_eq_ok h
    cases (emit_eq ..).symm.trans he
    obtain ⟨a, e, he, hb⟩ := Outcome.stateT_bind_eq_ok h
    obtain ⟨b', d'', hb', hrest⟩ := hafter a e he
    cases hb.symm.trans hb'
    exact hrest

/-- **A call reaches its callee and is joined to it.** -/
theorem makes_call (hl : Stitches procedures R G depth linking) {arguments : List Expr}
    (hR : R callee) (harguments : ∀ e ∈ arguments, e.hasCall = false)
    (hP : Stable procedures R P)
    (hnext : Completes procedures R caller callee next P used here Q) :
    Makes procedures R G depth P (call linking caller callee arguments >>= next) [callee] used here
      Q := by
  rw [call_eq, hl.procedures_eq]
  cases htarget : procedures.find? callee with
  | none =>
    refine fun d _ _ _ => ⟨fun hG => ?_, fun a d' h => by cases h⟩
    obtain ⟨f, hf⟩ := hl.supplied hG callee hR
    cases htarget.symm.trans hf
  | some target =>
    simp only [bind_assoc]
    refine (((makes_bindArguments caller callee harguments).keep hP).bind fun bound =>
      (makes_site hl htarget hR hP hnext bound).imp (fun _ _ h => h.2) fun _ _ h => h).perm
        (.refl _) ?_ fun _ hq => hq
    omega

end Call

/-- A call site that is joined adds itself. -/
theorem step_joined {caller callee : String} {node : Nat} (hfree : d.graph.isPlaced node = false) :
    Step procedures R node 1 1 [] d (d.joined caller callee node) where
  root_eq := ⟨d.root_joined .., rfl⟩
  nodes := d.extends_joined _ _ _
  bounded x b hb := by
    rw [Draft.boundary?_joined, FlowGraph.boundary?_addProcedure]
    split
    case isTrue hx => rw [hx, hb, Option.getD_some]
    case isFalse => exact hb
  entered x hx := hx
  sites := ⟨[d.nextSite caller callee node], rfl, fun s hs => by
    rw [List.mem_singleton.1 hs]
    exact le_rfl⟩
  positions := ⟨[], by rw [d.positions_joined, List.append_nil], by simp⟩
  opened x hx hnew := absurd hx hnew
  sites_length := by
    rw [d.sites_joined, List.length_append, List.length_singleton]
    rfl
  kept_length := by
    rw [Draft.kept_joined hfree, List.length_append, List.length_singleton]
    rfl

/-- The result of a call is kept. -/
theorem completes_capture (caller callee : String) :
    Completes procedures R caller callee (fun _ => do
      let d ← get
      set (d.withCapture caller callee)
      return .var (captureName callee (d.captured callee))) (fun _ => True) 1 []
      fun e _ => Expr.hasCall e = false := by
  intro node d hd _ hcallee hfresh
  have hq := (d.joined caller callee node).quiet_withCapture caller callee
  obtain ⟨hkept, hcaptures⟩ := Draft.captures_withCapture hd.captures hfresh.free
  refine ⟨_, _, rfl, (step_joined hfresh.free).trans (step_of_quiet hq node) le_rfl, hq.entered_eq,
    ⟨?_, hkept ▸ hcaptures⟩, rfl, d.nextSite caller callee node, ?_, rfl⟩
  · exact (hd.joined hcallee hfresh.stands hfresh.site).withCapture caller callee
  · rw [hq.calls_eq, d.sites_joined]
    simp

/-- A position that is free, of a body that was begun. -/
structure Free (x : String) (k : Nat) (d : Draft) : Prop where
  entered : x ∈ d.entered
  free : d.graph.position? x k = none

theorem stable_free (x : String) (k : Nat) : Stable procedures R (Free x k) := by
  intro d d' calls used hs h
  refine ⟨hs.entered x h.entered, ?_⟩
  obtain ⟨more, hmore, hnew⟩ := hs.positions
  rw [FlowGraph.position?, hmore, List.lookup_append]
  have hold : d.graph.positions.lookup (x, k) = none := h.free
  rw [hold, Option.none_or, List.lookup_eq_none_iff]
  intro q hq
  rcases (hnew q hq).2 with hout | hhere
  · refine bne_iff_ne.2 fun heq => hout ?_
    rw [← heq]
    exact h.entered
  · cases hhere

/-- A call made for its effects takes the position of its instruction. -/
theorem completes_position (caller callee : String) (k : Nat) (es : List Expr) :
    Completes procedures R caller callee (fun node => do
      grow fun g => g.mapPosition caller k node
      return (none : Option Instr)) (Free caller k) 0 [(caller, k)]
      fun left d => left = none ∧ d.Placed caller k (.call callee es) := by
  intro node d hd hfree hcallee hfresh
  have hfree₁ : (d.joined caller callee node).graph.position? caller k = none := by
    rw [FlowGraph.position?, d.positions_joined]
    exact hfree.free
  have hw := hd.joined hcallee hfresh.stands hfresh.site
  obtain ⟨es', hes'⟩ := hfresh.stands
  have hnode := d.extends_joined caller callee node _ _ hes'
  have hpositions : ((d.joined caller callee node).mapped caller k node).graph.positions =
      (d.joined caller callee node).graph.positions ++ [((caller, k), node)] := by
    rw [Draft.mapped_of_free hfree₁]
  have hkept₁ : (d.joined caller callee node).kept = d.kept ++ [d.nextSite caller callee node] :=
    Draft.kept_joined hfresh.free
  have hkept : ((d.joined caller callee node).mapped caller k node).kept = d.kept := by
    rw [Draft.kept_mapped hfree₁, hkept₁, List.filter_append]
    have hself : [d.nextSite caller callee node].filter (fun s => s.node != node) = [] := by
      simp [Draft.nextSite]
    rw [hself, List.append_nil]
    refine List.filter_eq_self.2 fun s hs => ?_
    exact bne_iff_ne.2 (hfresh.site s (List.mem_of_mem_filter hs))
  have hstep : Step procedures R node 1 0 [(caller, k)] d
      ((d.joined caller callee node).mapped caller k node) := by
    refine (step_joined hfresh.free).mapped hfree₁ le_rfl ?_
    rw [hkept, hkept₁, List.length_append, List.length_singleton]
  have hnode' := hstep.nodes _ _ hes'
  refine ⟨none, (d.joined caller callee node).mapped caller k node, rfl, hstep, rfl, ⟨?_, ?_⟩,
    ⟨rfl, node, .invocation callee es', ?_⟩, d.nextSite caller callee node, ?_, rfl⟩
  · exact hw.withPosition hfree.entered (FlowGraph.lt_size_of_getElem? hnode) hfree₁
  · rw [hkept]
    exact hd.captures.mono hstep.nodes fun _ => le_rfl
  · exact ⟨hpositions ▸ by simp, hnode', rfl⟩
  · exact List.mem_append_right _ (List.mem_singleton.2 rfl)

/-! ### Taking out calls -/

theorem makes_callValue (hl : Stitches procedures R G depth linking) (caller : String)
    {callee : String} (hR : R callee) {arguments : List Expr}
    (harguments : ∀ e ∈ arguments, e.hasCall = false) :
    Makes procedures R G depth (fun _ => True) (callValue linking caller callee arguments) [callee]
      1 [] fun e _ => e.hasCall = false := by
  rw [callValue_eq]
  exact makes_call hl hR harguments (fun _ _ _ _ _ _ => trivial) (completes_capture caller callee)

/-- Taking out the calls of an expression makes all of them and leaves none. -/
def Hoists (procedures : NameMap Procedure) (R : String → Prop) (G : Prop) (depth : Nat)
    (linking : Linking) (caller : String) (e : Expr) : Prop :=
  Makes procedures R G depth (fun _ => True) (hoist linking caller e) e.callees e.callees.length []
    fun e' _ => e'.hasCall = false

theorem makes_hoistList {caller : String} {es : List Expr}
    (h : ∀ e ∈ es, Hoists procedures R G depth linking caller e) :
    Makes procedures R G depth (fun _ => True) (hoistList linking caller es)
      (es.flatMap Expr.callees) (es.flatMap Expr.callees).length []
      fun es' _ => es'.length = es.length ∧ ∀ e ∈ es', e.hasCall = false := by
  induction es with
  | nil =>
    rw [hoistList]
    exact makes_pure fun _ _ => by simp
  | cons e es ih =>
    rw [hoistList, List.flatMap_cons, List.length_append]
    refine (h e (by simp)).bind fun e' => Makes.assume fun he' => ?_
    refine (ih fun t ht => h t (by simp [ht])).bind_nil fun es' => makes_pure fun _ hes' => ?_
    exact ⟨congrArg (· + 1) hes'.1, List.forall_mem_cons.2 ⟨he', hes'.2⟩⟩

end Build

theorem Expr.hasCall_eq (e : Expr) :
    e.hasCall = (e.calledProcedure?.isSome || e.children.any Expr.hasCall) := by
  rw [hasCall, subterms_eq, List.any_cons, List.any_flatMap]
  rfl

namespace Build

variable {procedures : NameMap Procedure} {R : String → Prop} {G : Prop} {depth : Nat}
  {linking : Linking}

/-- **Taking the calls out of an expression makes all of them and leaves none.** -/
theorem makes_hoist (hl : Stitches procedures R G depth linking) (caller : String) {e : Expr}
    (hR : ∀ x ∈ e.callees, R x) : Hoists procedures R G depth linking caller e := by
  induction e using Expr.induct_children with
  | h e ih =>
    have hcallees := Expr.callees_eq e
    have hchildren := makes_hoistList fun c hc => ih c hc fun x hx => hR x (by
      rw [hcallees]
      exact List.mem_append_right _ (List.mem_flatMap.2 ⟨c, hc, hx⟩))
    cases hcall : e.calledProcedure? with
    | none =>
      rw [hcall, Option.toList_none, List.nil_append] at hcallees
      rw [Hoists, hoist_eq linking caller hcall, hcallees]
      refine hchildren.bind_nil fun es => makes_pure fun _ hes => ?_
      rw [Expr.hasCall_eq, Expr.calledProcedure?_rebuild, hcall, Expr.children_rebuild hes.1]
      simpa using hes.2
    | some f =>
      obtain ⟨es, rfl⟩ : ∃ es, e = .call f es := by
        cases e <;> simp_all [Expr.calledProcedure?]
      have hf : R f := hR f (by rw [hcallees]; simp [Expr.calledProcedure?])
      rw [Hoists, hoist]
      refine (hchildren.bind fun es' => Makes.assume fun hes' =>
        makes_callValue hl caller hf hes'.2).perm ?_ ?_ fun _ hq => hq
      · rw [hcallees]
        exact List.perm_append_comm
      · rw [hcallees, List.length_append, Nat.add_comm]
        rfl

end Build

end ParLoop
