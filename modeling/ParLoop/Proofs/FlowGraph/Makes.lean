import Mathlib.Algebra.Ring.Nat
import ParLoop.Proofs.FlowGraph.CallFree
import ParLoop.Proofs.FlowGraph.Joined
import ParLoop.Proofs.NameMap
import ParLoop.Proofs.OrderedSet

/-!
# What the steps of a construction make

The construction of a graph is followed step by step. `Build.Step` says how a step that makes some
calls changes the draft; the calls made in a body that is built on the way are counted when its
procedure is entered, so that the number of call sites only depends on which procedures are.
`Build.Makes` adds when a part of the construction succeeds, and what it leaves behind. Such parts
compose (`Makes.bind`), and keep what no call changes (`Makes.keep`). Each nested callee is a new
one, so it suffices to go down as many calls as procedures are left (`Within`).
-/

namespace ParLoop

/-- The calls of an instruction whose results it uses. -/
def Instr.usedCalls (i : Instr) : List String := i.expressions.flatMap Expr.callees

/-- A node stands for an instruction of a body. -/
def NodeKind.StandsFor : NodeKind → Instr → Prop
  | .invocation callee _, .call f _ => callee = f
  | .instr _, .call .. => False
  | .instr left, i => left.outline = i.outline
  | _, _ => False

namespace OrderedSet

/-- A sum over a set with one more element. -/
theorem sum_insert {s : OrderedSet String} {x : String} (hx : x ∉ s) (w : String → Nat) :
    ((s.insert x).toList.map w).sum = w x + (s.toList.map w).sum := by
  have hperm : (s.insert x).toList.Perm (x :: s.toList) := by
    refine (List.perm_ext_iff_of_nodup (nodup_toList _) ?_).2 fun y => ?_
    · exact List.nodup_cons.2 ⟨hx, nodup_toList s⟩
    · exact mem_insert.trans List.mem_cons.symm
  rw [(hperm.map w).sum_eq, List.map_cons, List.sum_cons]

end OrderedSet

/-- The number of calls of a kind in the bodies of some procedures. -/
def NameMap.total (procedures : NameMap Procedure) (calls : Instr → List String)
    (names : OrderedSet String) : Nat :=
  (names.toList.map fun x =>
    (procedures.find? x).elim 0 fun f => (f.body.flatMap calls).length).sum

theorem NameMap.total_insert {procedures : NameMap Procedure} {calls : Instr → List String}
    {names : OrderedSet String} {x : String} {f : Procedure} (hx : x ∉ names)
    (hf : procedures.find? x = some f) : procedures.total calls (names.insert x) =
      (f.body.flatMap calls).length + procedures.total calls names := by
  rw [total, OrderedSet.sum_insert hx, hf]
  rfl

namespace Draft

/-- The instruction at a position of a body has its node. -/
def Placed (d : Draft) (x : String) (k : Nat) (i : Instr) : Prop :=
  ∃ n kind, ((x, k), n) ∈ d.graph.positions ∧ d.graph.nodes[n]? = some ⟨x, kind⟩ ∧ kind.StandsFor i

/-- A well-formed draft in which the results of calls are kept apart. -/
structure Valid (d : Draft) : Prop extends WellFormed d where
  captures : d.Captures d.kept

end Draft

namespace Build

variable {procedures : NameMap Procedure} {R : String → Prop} {G : Prop} {depth : Nat}
  {α β : Type} {d e d' : Draft}

/-! ### Steps -/

/-- The body of a procedure stands in the graph. -/
structure Opened (procedures : NameMap Procedure) (R : String → Prop) (d : Draft) (x : String) :
    Prop where
  reached : R x
  bounded : ∃ b, d.graph.boundary? x = some b
  body : ∃ f, procedures.find? x = some f ∧ WellLabelled f.body ∧
    (∀ y ∈ f.body.flatMap Instr.callees, y ∈ d.entered ∧ procedures.contains y = true) ∧
    ∀ k i, f.body[k]? = some i → d.Placed x k i

/-- How a step changes the draft that makes some calls, uses the results of some, and takes some
positions of bodies that were begun before. No node below a given one becomes a call site or gets a
position. -/
structure Step (procedures : NameMap Procedure) (R : String → Prop) (low calls used : Nat)
    (here : List (String × Nat)) (d d' : Draft) : Prop where
  root_eq : d'.graph.root = d.graph.root ∧ d'.calls.root = d.calls.root
  nodes : d.graph.Extends d'.graph
  bounded : ∀ x b, d.graph.boundary? x = some b → d'.graph.boundary? x = some b
  entered : ∀ x ∈ d.entered, x ∈ d'.entered
  sites : ∃ more, d'.calls.sites = d.calls.sites ++ more ∧ ∀ s ∈ more, low ≤ s.node
  positions : ∃ more, d'.graph.positions = d.graph.positions ++ more ∧
    ∀ q ∈ more, low ≤ q.2 ∧ (q.1.1 ∉ d.entered ∨ q.1 ∈ here)
  opened : ∀ x ∈ d'.entered, x ∉ d.entered → Opened procedures R d' x
  sites_length : d'.calls.sites.length + procedures.total Instr.callees d.entered =
    d.calls.sites.length + calls + procedures.total Instr.callees d'.entered
  kept_length : d'.kept.length + procedures.total Instr.usedCalls d.entered =
    d.kept.length + used + procedures.total Instr.usedCalls d'.entered

theorem placed_mono {x : String} {k : Nat} {i : Instr} (h : d.Placed x k i)
    (hnodes : d.graph.Extends d'.graph)
    (hpositions : ∃ more, d'.graph.positions = d.graph.positions ++ more) : d'.Placed x k i := by
  obtain ⟨n, kind, hn, hkind, hstands⟩ := h
  obtain ⟨more, hmore⟩ := hpositions
  exact ⟨n, kind, hmore ▸ List.mem_append_left _ hn, hnodes _ _ hkind, hstands⟩

theorem Opened.step {x : String} {low calls used : Nat} {here : List (String × Nat)}
    (h : Opened procedures R d x) (hs : Step procedures R low calls used here d d') :
    Opened procedures R d' x where
  reached := h.reached
  bounded := h.bounded.imp fun b hb => hs.bounded x b hb
  body := by
    obtain ⟨f, hf, hlabels, hcallees, hplaced⟩ := h.body
    obtain ⟨more, hmore, -⟩ := hs.positions
    exact ⟨f, hf, hlabels, fun y hy => (hcallees y hy).imp_left (hs.entered y),
      fun k i hi => placed_mono (hplaced k i hi) hs.nodes ⟨more, hmore⟩⟩

theorem Step.trans {low low' calls calls' used used' : Nat} {here here' : List (String × Nat)}
    (h : Step procedures R low calls used here d e)
    (h' : Step procedures R low' calls' used' here' e d') (hlow : low ≤ low') :
    Step procedures R low (calls + calls') (used + used') (here ++ here') d d' where
  root_eq := ⟨h'.root_eq.1.trans h.root_eq.1, h'.root_eq.2.trans h.root_eq.2⟩
  nodes := h.nodes.trans h'.nodes
  bounded x b hb := h'.bounded x b (h.bounded x b hb)
  entered x hx := h'.entered x (h.entered x hx)
  sites := by
    obtain ⟨more, hmore, hnew⟩ := h.sites
    obtain ⟨more', hmore', hnew'⟩ := h'.sites
    refine ⟨more ++ more', by rw [hmore', hmore, List.append_assoc], fun s hs => ?_⟩
    rcases List.mem_append.1 hs with hs | hs
    · exact hnew s hs
    · exact hlow.trans (hnew' s hs)
  positions := by
    obtain ⟨more, hmore, hnew⟩ := h.positions
    obtain ⟨more', hmore', hnew'⟩ := h'.positions
    refine ⟨more ++ more', by rw [hmore', hmore, List.append_assoc], fun q hq => ?_⟩
    rcases List.mem_append.1 hq with hq | hq
    · exact ⟨(hnew q hq).1, (hnew q hq).2.imp_right (List.mem_append_left _)⟩
    · refine ⟨hlow.trans (hnew' q hq).1, (hnew' q hq).2.imp ?_ (List.mem_append_right _)⟩
      exact fun hout hin => hout (h.entered _ hin)
  opened x hx hnew := by
    by_cases he : x ∈ e.entered
    · exact (h.opened x he hnew).step h'
    · exact h'.opened x hx he
  sites_length := by
    have := h.sites_length
    have := h'.sites_length
    omega
  kept_length := by
    have := h.kept_length
    have := h'.kept_length
    omega

theorem step_of_quiet (hq : d.Quiet d') (low : Nat) : Step procedures R low 0 0 [] d d' where
  root_eq := ⟨hq.root_eq, by rw [hq.calls_eq]⟩
  nodes := hq.nodes
  bounded := hq.bounded
  entered x hx := hq.entered_eq ▸ hx
  sites := ⟨[], by rw [hq.calls_eq, List.append_nil], by simp⟩
  positions := ⟨[], by rw [hq.positions_eq, List.append_nil], by simp⟩
  opened x hx hnew := absurd (hq.entered_eq ▸ hx) hnew
  sites_length := by rw [hq.calls_eq, hq.entered_eq, Nat.add_zero]
  kept_length := by rw [hq.kept_eq, hq.entered_eq, Nat.add_zero]

/-- A step after which a node takes a position. -/
theorem Step.mapped {low calls used used' node k : Nat} {here : List (String × Nat)} {x : String}
    (h : Step procedures R low calls used here d e) (hfree : e.graph.position? x k = none)
    (hlow : low ≤ node)
    (hkept : (e.mapped x k node).kept.length + used = e.kept.length + used') :
    Step procedures R low calls used' (here ++ [(x, k)]) d (e.mapped x k node) := by
  obtain ⟨hroot, hnodes, hboundaries⟩ := e.graph.mapPosition_frame x k node
  have hextends : e.graph.Extends (e.mapped x k node).graph := fun n v hv => by
    rw [Draft.mapped, hnodes]
    exact hv
  have hbounded : ∀ y b, e.graph.boundary? y = some b →
      (e.mapped x k node).graph.boundary? y = some b := fun y b hb => by
    rw [FlowGraph.boundary?, Draft.mapped, hboundaries]
    exact hb
  have hpositions : (e.mapped x k node).graph.positions =
      e.graph.positions ++ [((x, k), node)] := by
    rw [Draft.mapped_of_free hfree]
  refine ⟨⟨hroot.trans h.root_eq.1, h.root_eq.2⟩, h.nodes.trans hextends,
    fun y b hb => hbounded y b (h.bounded y b hb), h.entered, h.sites, ?_, fun y hy hnew => ?_,
    h.sites_length, ?_⟩
  · obtain ⟨more, hmore, hnew⟩ := h.positions
    refine ⟨more ++ [((x, k), node)], by rw [hpositions, hmore, List.append_assoc], fun q hq => ?_⟩
    rcases List.mem_append.1 hq with hq | hq
    · exact ⟨(hnew q hq).1, (hnew q hq).2.imp_right (List.mem_append_left _)⟩
    · rw [List.mem_singleton.1 hq]
      exact ⟨hlow, Or.inr (by simp)⟩
  · obtain ⟨hR, hbound, f, hf, hlabels, hcallees, hplaced⟩ := h.opened y hy hnew
    exact ⟨hR, hbound.imp fun b hb => hbounded y b hb, f, hf, hlabels, hcallees,
      fun k i hi => placed_mono (hplaced k i hi) hextends ⟨_, hpositions⟩⟩
  · have := h.kept_length
    show (e.mapped x k node).kept.length + _ = d.kept.length + used' + _
    have hentered : (e.mapped x k node).entered = e.entered := rfl
    rw [hentered]
    omega

theorem Step.withCursor {low calls used : Nat} {here : List (String × Nat)}
    (h : Step procedures R low calls used here d e) (cursor : Option Nat) :
    Step procedures R low calls used here d { e with cursor := cursor } where
  root_eq := h.root_eq
  nodes := h.nodes
  bounded := h.bounded
  entered := h.entered
  sites := h.sites
  positions := h.positions
  opened x hx hnew := by
    obtain ⟨hR, hbound, hbody⟩ := h.opened x hx hnew
    exact ⟨hR, hbound, hbody⟩
  sites_length := h.sites_length
  kept_length := h.kept_length

/-- Every procedure that a step enters is called by a call site. -/
def Found (d d' : Draft) : Prop :=
  ∀ x ∈ d'.entered, x ∉ d.entered → ∃ s ∈ d'.calls.sites, s.callee = x

/-- How a step changes the draft that calls some procedures. -/
structure Leads (procedures : NameMap Procedure) (R : String → Prop) (called : List String)
    (used : Nat) (here : List (String × Nat)) (d d' : Draft) : Prop
    extends Step procedures R d.graph.size called.length used here d d' where
  called : ∀ x ∈ called, x ∈ d'.entered ∧ procedures.contains x = true
  found : Found d d'

theorem Leads.trans {called called' : List String} {used used' : Nat}
    {here here' : List (String × Nat)} (h : Leads procedures R called used here d e)
    (h' : Leads procedures R called' used' here' e d') :
    Leads procedures R (called ++ called') (used + used') (here ++ here') d d' where
  toStep := by
    rw [List.length_append]
    exact h.toStep.trans h'.toStep h.nodes.size_le
  called x hx := (List.mem_append.1 hx).elim (fun hx => (h.called x hx).imp_left (h'.entered x))
    (h'.called x)
  found x hx hnew := by
    by_cases he : x ∈ e.entered
    · obtain ⟨s, hs, hx⟩ := h.found x he hnew
      obtain ⟨more, hmore, -⟩ := h'.sites
      exact ⟨s, hmore ▸ List.mem_append_left _ hs, hx⟩
    · exact h'.found x hx he

theorem leads_of_quiet (hq : d.Quiet d') : Leads procedures R [] 0 [] d d' where
  toStep := step_of_quiet hq _
  called := by simp
  found x hx hnew := absurd (hq.entered_eq ▸ hx) hnew

/-! ### Procedures that are left -/

/-- At most a number of procedures are not entered. -/
def Within (procedures : NameMap Procedure) (depth : Nat) (d : Draft) : Prop :=
  ∃ left : List String, left.length ≤ depth ∧
    ∀ x, procedures.contains x = true → x ∈ d.entered ∨ x ∈ left

theorem Within.mono {d d' : Draft} (h : Within procedures depth d)
    (hentered : ∀ x ∈ d.entered, x ∈ d'.entered) : Within procedures depth d' := by
  obtain ⟨left, hlength, hleft⟩ := h
  exact ⟨left, hlength, fun x hx => (hleft x hx).imp_left (hentered x)⟩

/-- If all procedures are entered, there is none to go down into. -/
theorem not_within_zero {d : Draft} {name : String} (h : Within procedures 0 d)
    (hname : procedures.contains name = true) (hnew : name ∉ d.entered) : False := by
  obtain ⟨left, hlength, hleft⟩ := h
  obtain rfl := List.eq_nil_of_length_eq_zero (Nat.le_zero.1 hlength)
  rcases hleft name hname with h | h
  · exact hnew h
  · cases h

/-- Where a callee is entered, one procedure less is left. -/
theorem Within.insert {d : Draft} {name : String} (h : Within procedures (depth + 1) d)
    (hname : procedures.contains name = true) (hnew : name ∉ d.entered) :
    Within procedures depth { d with entered := d.entered.insert name } := by
  obtain ⟨left, hlength, hleft⟩ := h
  have hmem : name ∈ left := (hleft name hname).resolve_left hnew
  refine ⟨left.erase name, ?_, fun x hx => ?_⟩
  · rw [List.length_erase_of_mem hmem]
    omega
  · rw [OrderedSet.mem_insert]
    by_cases hxn : x = name
    · exact Or.inl (Or.inl hxn)
    · rcases hleft x hx with hx | hx
      · exact Or.inl (Or.inr hx)
      · exact Or.inr ((List.mem_erase_of_ne hxn).2 hx)

theorem within_size (procedures : NameMap Procedure) (d : Draft) :
    Within procedures procedures.size d :=
  ⟨procedures.names, by simp [NameMap.names, NameMap.size],
    fun _ hx => Or.inr (NameMap.mem_names_of_contains hx)⟩

/-! ### Parts of the construction -/

/-- A part of the construction that starts where `P` holds calls some procedures and leaves `Q`
behind. It cannot fail if `G` holds. -/
def Makes (procedures : NameMap Procedure) (R : String → Prop) (G : Prop) (depth : Nat)
    (P : Draft → Prop) (m : Build α) (called : List String) (used : Nat)
    (here : List (String × Nat)) (Q : α → Draft → Prop) : Prop :=
  ∀ d, Within procedures depth d → d.Valid → P d →
    (G → ∃ r, m d = .ok r) ∧
    ∀ a d', m d = .ok (a, d') → Leads procedures R called used here d d' ∧ d'.Valid ∧ Q a d'

namespace Makes

variable {P : Draft → Prop} {m : Build α} {f : α → Build β} {called called' : List String}
  {used used' : Nat} {here here' : List (String × Nat)} {Q : α → Draft → Prop}
  {Q' : β → Draft → Prop}

theorem bind (hm : Makes procedures R G depth P m called used here Q)
    (hf : ∀ a, Makes procedures R G depth (Q a) (f a) called' used' here' Q') :
    Makes procedures R G depth P (m >>= f) (called ++ called') (used + used') (here ++ here')
      Q' := by
  intro d hwithin hvalid hP
  obtain ⟨hok, hstep⟩ := hm d hwithin hvalid hP
  have hnext : ∀ a e, m d = .ok (a, e) → Within procedures depth e := fun a e he =>
    hwithin.mono (hstep a e he).1.entered
  constructor
  · intro hG
    obtain ⟨⟨a, e⟩, he⟩ := hok hG
    obtain ⟨-, hv, hQ⟩ := hstep a e he
    obtain ⟨r, hr⟩ := (hf a e (hnext a e he) hv hQ).1 hG
    exact ⟨r, by rw [bind_eq, he]; exact hr⟩
  · intro b d' h
    obtain ⟨a, e, he, hb⟩ := Outcome.stateT_bind_eq_ok h
    obtain ⟨hl, hv, hQ⟩ := hstep a e he
    obtain ⟨hl', hv', hQ'⟩ := (hf a e (hnext a e he) hv hQ).2 b d' hb
    exact ⟨hl.trans hl', hv', hQ'⟩

/-- The calls may be listed in another order. -/
theorem perm (hm : Makes procedures R G depth P m called used here Q)
    (hcalled : called'.Perm called) (hused : used' = used) (hhere : ∀ q ∈ here, q ∈ here') :
    Makes procedures R G depth P m called' used' here' Q := by
  subst hused
  refine fun d hwithin hvalid hP => (hm d hwithin hvalid hP).imp_right fun h a d' hok => ?_
  obtain ⟨hl, hrest⟩ := h a d' hok
  refine ⟨{ hl with
    positions := ?_
    sites_length := hcalled.length_eq ▸ hl.sites_length
    called := fun x hx => hl.called x (hcalled.mem_iff.1 hx) }, hrest⟩
  obtain ⟨more, hmore, hnew⟩ := hl.positions
  exact ⟨more, hmore, fun q hq => (hnew q hq).imp_right fun h => h.imp_right (hhere _)⟩

/-- What no step changes also holds afterwards. -/
theorem frame {F : Draft → Prop} (hm : Makes procedures R G depth P m called used here Q)
    (hF : ∀ d d', d.Valid → Leads procedures R called used here d d' → F d → F d') :
    Makes procedures R G depth (fun d => P d ∧ F d) m called used here fun a d => Q a d ∧ F d := by
  intro d hwithin hvalid hP
  refine (hm d hwithin hvalid hP.1).imp_right fun h a d' hok => ?_
  obtain ⟨hl, hv, hQ⟩ := h a d' hok
  exact ⟨hl, hv, hQ, hF d d' hvalid hl hP.2⟩

theorem imp {P' : Draft → Prop} {Q'' : α → Draft → Prop}
    (hm : Makes procedures R G depth P m called used here Q) (hP : ∀ d, d.Valid → P' d → P d)
    (hQ : ∀ a d, Q a d → Q'' a d) : Makes procedures R G depth P' m called used here Q'' := by
  intro d hwithin hvalid hP'
  refine (hm d hwithin hvalid (hP d hvalid hP')).imp_right fun h a d' hok => ?_
  obtain ⟨hl, hv, hq⟩ := h a d' hok
  exact ⟨hl, hv, hQ a d' hq⟩

/-- A sequence whose second part calls nothing. -/
theorem bind_nil (hm : Makes procedures R G depth P m called used here Q)
    (hf : ∀ a, Makes procedures R G depth (Q a) (f a) [] 0 [] Q') :
    Makes procedures R G depth P (m >>= f) called used here Q' := by
  refine (hm.bind hf).perm ?_ rfl ?_
  · rw [List.append_nil]
  · simp

/-- A precondition on the values so far. -/
theorem assume {φ : Prop}
    (hm : φ → Makes procedures R G depth (fun _ => True) m called used here Q) :
    Makes procedures R G depth (fun _ => φ) m called used here Q :=
  fun d hwithin hvalid hφ => hm hφ d hwithin hvalid trivial

theorem assume_and {φ : Prop} (hm : φ → Makes procedures R G depth P m called used here Q) :
    Makes procedures R G depth (fun d => φ ∧ P d) m called used here Q :=
  fun d hwithin hvalid hφ => hm hφ.1 d hwithin hvalid hφ.2

/-- A part that only appends something. -/
theorem of_quiet (h : ∀ d, d.Valid → P d → ∃ a d', m d = .ok (a, d') ∧ d.Quiet d' ∧
    d'.WellFormed ∧ Q a d') : Makes procedures R G depth P m [] 0 [] Q := by
  intro d _ hvalid hP
  obtain ⟨a, d', hok, hq, hw, hQ⟩ := h d hvalid hP
  refine ⟨fun _ => ⟨(a, d'), hok⟩, fun b e he => ?_⟩
  cases hok.symm.trans he
  exact ⟨leads_of_quiet hq, ⟨hw, hq.captures hvalid.captures⟩, hQ⟩

end Makes

theorem makes_pure {a : α} {P : Draft → Prop} {Q : α → Draft → Prop} (h : ∀ d, P d → Q a d) :
    Makes procedures R G depth P (pure a : Build α) [] 0 [] Q :=
  .of_quiet fun d hd hP => ⟨a, d, rfl, d.quiet_refl, hd.toWellFormed, h d hP⟩

theorem makes_emitInstr {x : String} {i : Instr} (hi : i.hasCall = false) :
    Makes procedures R G depth (fun _ => True) (emitInstr x i) [] 0 [] fun _ _ => True :=
  .of_quiet fun d hd _ =>
    ⟨(), _, emitInstr_eq x i d, d.quiet_appended _ _, hd.appendedInstr hi, trivial⟩

theorem makes_forM {l : List α} {step : α → Build Unit}
    (h : ∀ a ∈ l, Makes procedures R G depth (fun _ => True) (step a) [] 0 [] fun _ _ => True) :
    Makes procedures R G depth (fun _ => True) (l.forM step) [] 0 [] fun _ _ => True := by
  induction l with
  | nil => exact makes_pure fun _ _ => trivial
  | cons a l ih => exact (h a (by simp)).bind fun _ => ih fun b hb => h b (by simp [hb])

/-- What holds of a draft whatever calls are made. -/
def Stable (procedures : NameMap Procedure) (R : String → Prop) (P : Draft → Prop) : Prop :=
  ∀ d d' calls used, Step procedures R d.graph.size calls used [] d d' → P d → P d'

theorem Makes.keep {P : Draft → Prop} {m : Build α} {called : List String} {used : Nat}
    {Q : α → Draft → Prop} (hm : Makes procedures R G depth (fun _ => True) m called used [] Q)
    (hP : Stable procedures R P) :
    Makes procedures R G depth P m called used [] fun a d => Q a d ∧ P d := by
  intro d hwithin hvalid hPd
  refine (hm d hwithin hvalid trivial).imp_right fun h a d' hok => ?_
  obtain ⟨hl, hv, hQ⟩ := h a d' hok
  exact ⟨hl, hv, hQ, hP d d' _ _ hl.toStep hPd⟩

end Build

end ParLoop
