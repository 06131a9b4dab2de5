import ParLoop.Proofs.Flow.Solution

/-!
# Where kinds come from

What is known of a variable comes from one of its definitions. A kind that a solver holds at a node
was found at a definition which reaches the node, and it was first held where this definition leads
to (`traced_of_solve`). From there on a definition reaches a node along a path on which the variable
gets no other value (`exists_passes`), and along such a path kinds are not lost. So a node that
gives the variable no value lets through all that is known of it behind the node
(`kind_mem_of_not_assigned`).
-/

namespace ParLoop

/-- The variable that gets a value at a node. -/
def FlowGraph.defined? (g : FlowGraph) (u : Nat) : Option String :=
  (g.instr? u).bind Instr.defined?

namespace Flow

open Descriptor

variable {g : FlowGraph} {name : String} {body : List Instr} {counter x : String} {u v d h : Nat}
  {k : Kind} {X Y : OrderedSet Descriptor}

/-! ### What leaves a node -/

/-- A node that gives no variable a value lets everything through, one that does describes the
variable anew. -/
theorem leaving_cases (hg : g.IsGraphOf name body) (counter : String) (u : Nat)
    (X : OrderedSet Descriptor) :
    g.defined? u = none ∧ (dependence counter).leaving g u X = X ∨
      ∃ y kinds, g.defined? u = some y ∧
        (dependence counter).leaving g u X = redefine X y u kinds := by
  -- The start and the stop have no instruction; position `n` has the node `n + 2`.
  rcases u with - | - | n
  · left
    rw [leaving_start hg, FlowGraph.defined?, FlowGraph.instr?, hg.node_start]
    exact ⟨rfl, rfl⟩
  · left
    rw [leaving_stop hg, FlowGraph.defined?, FlowGraph.instr?, hg.node_stop]
    exact ⟨rfl, rfl⟩
  · rw [FlowGraph.defined?, hg.instr?_eq]
    cases hi : body[n]? with
    | none =>
      exact Or.inl ⟨rfl, Analysis.leaving_of_none _ X (by rw [hg.node_instr, hi, Option.map_none])⟩
    | some i =>
      rw [leaving_instr hg hi]
      cases i with
      | declare y => exact Or.inr ⟨y, ∅, rfl, rfl⟩
      | assign t value =>
        cases t with
        | var y => exact Or.inr ⟨y, _, rfl, rfl⟩
        | _ => exact Or.inl ⟨rfl, rfl⟩
      | _ => exact Or.inl ⟨rfl, rfl⟩

theorem mem_leaving_of_ne (hg : g.IsGraphOf name body) (hu : g.defined? u ≠ some x) {m : Mark} :
    ⟨x, m⟩ ∈ (dependence counter).leaving g u X ↔ ⟨x, m⟩ ∈ X := by
  obtain ⟨-, heq⟩ | ⟨y, kinds, hy, heq⟩ := leaving_cases hg counter u X
  · rw [heq]
  · have hne : x ≠ y := fun h => hu (h ▸ hy)
    simp [heq, mem_redefine, hne]

theorem definition_mem_leaving (hg : g.IsGraphOf name body) (hu : g.defined? u = some x) {n : Nat} :
    ⟨x, .definition n⟩ ∈ (dependence counter).leaving g u X ↔ n = u := by
  obtain ⟨hnone, -⟩ | ⟨y, kinds, hy, heq⟩ := leaving_cases hg counter u X
  · rw [hnone] at hu
    cases hu
  · have hxy : x = y := Option.some_inj.1 (hu.symm.trans hy)
    simp [heq, mem_redefine, hxy]

/-- Only assignments say more of a variable than where it got its value. -/
theorem kind_not_mem_leaving (hg : g.IsGraphOf name body) (hu : g.defined? u = some x)
    (hassign : ∀ value, g.instr? u ≠ some (.assign (.var x) value)) :
    ⟨x, .kind k⟩ ∉ (dependence counter).leaving g u X := by
  obtain ⟨i, hi, hdefined⟩ := Option.bind_eq_some_iff.1 hu
  obtain ⟨n, hn, rfl⟩ := hg.instr?_eq_some.1 hi
  rw [leaving_instr hg hn]
  cases i with
  | declare y =>
    cases hdefined
    show _ ∉ redefine _ _ _ _
    simp [mem_redefine, OrderedSet.not_mem_empty]
  | assign t value =>
    cases t with
    | var y =>
      cases hdefined
      exact absurd hi (hassign value)
    | _ => cases hdefined
  | _ => cases hdefined

/-! ### Where a definition leads -/

/-- The first node that a definition reaches: the start itself for the counter, the next node for an
instruction. -/
def LeadsTo (g : FlowGraph) (d h : Nat) : Prop :=
  d = g.start ∧ h = g.start ∨ (g.defined? d).isSome = true ∧ ⟨d, h⟩ ∈ g.edges

theorem defined?_start (hg : g.IsGraphOf name body) : g.defined? g.start = none := by
  rw [hg.start_eq, FlowGraph.defined?, FlowGraph.instr?, hg.node_start]
  rfl

/-- Behind a definition control goes on to the next position. -/
theorem target_of_defined (hg : g.IsGraphOf name body) (hd : (g.defined? d).isSome = true)
    (he : ⟨d, h⟩ ∈ g.edges) : h = nodeOf body.length (d - 1) := by
  obtain ⟨y, hy⟩ := Option.isSome_iff_exists.1 hd
  obtain ⟨i, hi, hdefined⟩ := Option.bind_eq_some_iff.1 hy
  obtain ⟨n, hn, rfl⟩ := hg.instr?_eq_some.1 hi
  obtain ⟨hzero, -⟩ | ⟨m, m', ⟨j, hj, hnext⟩, hm, rfl⟩ := (hg.mem_edges _ _).1 he
  · omega
  · obtain rfl : n = m := by omega
    rw [hn, Option.some_inj] at hj
    subst hj
    -- Only jumps and branches go elsewhere, and they define nothing.
    obtain ⟨-, rfl⟩ | ⟨l, hl, -⟩ := hnext
    · rfl
    · cases i with
      | jump _ | branch _ _ => cases hdefined
      | _ => cases hl

theorem leaving_start_eq (hg : g.IsGraphOf name body) :
    (dependence counter).leaving g g.start X = X := by
  obtain ⟨-, heq⟩ | ⟨y, kinds, hy, -⟩ := leaving_cases hg counter g.start X
  · exact heq
  · rw [defined?_start hg] at hy
    cases hy

/-- A definition leads to one node. -/
theorem LeadsTo.unique (hg : g.IsGraphOf name body) {h' : Nat} (hd : LeadsTo g d h)
    (hd' : LeadsTo g d h') : h = h' := by
  obtain ⟨rfl, rfl⟩ | ⟨hdefined, he⟩ := hd
  · obtain ⟨-, rfl⟩ | ⟨hdefined, -⟩ := hd'
    · rfl
    · rw [defined?_start hg] at hdefined
      cases hdefined
  · obtain ⟨rfl, -⟩ | ⟨-, he'⟩ := hd'
    · rw [defined?_start hg] at hdefined
      cases hdefined
    · rw [target_of_defined hg hdefined he, target_of_defined hg hdefined he']

/-! ### Kinds are traced to definitions -/

/-- A kind was found at a definition that reaches a node with some facts, and it is held where the
definition leads to, unless the variable has other definitions there. -/
def Traced (counter : String) (g : FlowGraph) (input? : Nat → Option (OrderedSet Descriptor))
    (X : OrderedSet Descriptor) (x : String) (k : Kind) : Prop :=
  ∃ d h Y, ⟨x, .definition d⟩ ∈ X ∧ (∃ Z, ⟨x, .kind k⟩ ∈ (dependence counter).leaving g d Z) ∧
    LeadsTo g d h ∧ input? h = some Y ∧ (⟨x, .kind k⟩ ∈ Y ∨ ¬ DefinedOnce Y x)

variable {input? : Nat → Option (OrderedSet Descriptor)}

theorem Traced.mono (h : Traced counter g input? X x k)
    (hXY : ∀ n, ⟨x, .definition n⟩ ∈ X → ⟨x, .definition n⟩ ∈ Y) :
    Traced counter g input? Y x k := by
  obtain ⟨d, h, Z, hd, hrest⟩ := h
  exact ⟨d, h, Z, hXY d hd, hrest⟩

/-- More facts at a node take no trace away. -/
theorem Traced.arrive (htraced : Traced counter g input? X x k) {t : Nat}
    {Z : OrderedSet Descriptor} (hZ : ∀ Y, input? t = some Y → ∃ L, Z = merge Y L) :
    Traced counter g (fun node => if node = t then some Z else input? node) X x k := by
  obtain ⟨d, h, Y, hd, hfound, hleads, hY, hheld⟩ := htraced
  by_cases ht : h = t
  · -- Facts arrive where the definition leads to: a kind is lost only to a second definition.
    subst ht
    obtain ⟨L, rfl⟩ := hZ Y hY
    refine ⟨d, h, merge Y L, hd, hfound, hleads, if_pos rfl, ?_⟩
    obtain hk | honce := hheld
    · by_cases honce : DefinedOnce (merge Y L) x
      · exact Or.inl (kind_mem_merge.2 ⟨Or.inl hk, definedOnce_merge.1 honce⟩)
      · exact Or.inr honce
    · refine Or.inr fun h => honce (h.of_definitions fun n hn => ?_)
      exact definition_mem_merge.2 (Or.inl hn)
  · exact ⟨d, h, Y, hd, hfound, hleads, (if_neg ht).trans hY, hheld⟩

/-- A kind that arrives along an edge is found at its source or was traced there. -/
theorem traced_leaving (hg : g.IsGraphOf name body) (he : ⟨u, v⟩ ∈ g.edges)
    (hX : ∀ k, ⟨x, .kind k⟩ ∈ X → Traced counter g input? X x k) {Z : OrderedSet Descriptor}
    (hZ : ∀ Y, input? v = some Y → ∃ L, Z = merge Y L)
    (hdefinitions : ∀ n, ⟨x, .definition n⟩ ∈ (dependence counter).leaving g u X →
      ⟨x, .definition n⟩ ∈ Z)
    (hk : ⟨x, .kind k⟩ ∈ (dependence counter).leaving g u X) (hkZ : ⟨x, .kind k⟩ ∈ Z) :
    Traced counter g (fun node => if node = v then some Z else input? node) Z x k := by
  by_cases hu : g.defined? u = some x
  · have hd := hdefinitions u ((definition_mem_leaving hg hu).2 rfl)
    have hleads : LeadsTo g u v := Or.inr ⟨by rw [hu]; rfl, he⟩
    exact ⟨u, v, Z, hd, ⟨X, hk⟩, hleads, if_pos rfl, Or.inl hkZ⟩
  · have htraced := hX k ((mem_leaving_of_ne hg hu).1 hk)
    exact (htraced.arrive hZ).mono fun n hn => hdefinitions n ((mem_leaving_of_ne hg hu).2 hn)

variable {cap : Nat} {r : Solution Descriptor}

/-- The flows of loop dependence are the edges. -/
theorem mem_flowsFrom_dependence (hg : g.IsGraphOf name body) {e : Edge} :
    e ∈ (dependence counter).direction.flowsFrom g e.source ↔ e ∈ g.edges :=
  mem_flowsFrom_forward hg rfl

/-- The facts about the counter are those at its only definition. -/
theorem mem_counterFacts {start : Nat} {m : Mark} (hm : ⟨x, m⟩ ∈ counterFacts counter start) :
    x = counter ∧ ⟨x, .definition start⟩ ∈ counterFacts counter start ∧
      ∀ n, m = .definition n → n = start := by
  simp only [counterFacts, mem_redefine] at hm ⊢
  obtain ⟨hempty, -⟩ | hm | ⟨k, -, hm⟩ := hm
  · exact absurd hempty (OrderedSet.not_mem_empty _)
  · cases hm
    exact ⟨rfl, Or.inr (Or.inl rfl), fun n hn => by cases hn; rfl⟩
  · cases hm
    exact ⟨rfl, Or.inr (Or.inl rfl), fun n hn => by cases hn⟩

/-- **Every kind of a solution is traced to a definition.** -/
theorem traced_of_solve (hg : g.IsGraphOf name body) (hr : (dependence counter).solve g cap = .ok r)
    (hX : r.input? u = some X) (hk : ⟨x, .kind k⟩ ∈ X) : Traced counter g r.input? X x k := by
  -- The invariant is about all nodes: what is traced at one speaks of the facts at another.
  let I : (Nat → Option (OrderedSet Descriptor)) → Prop := fun input? =>
    ∀ u X x k, input? u = some X → ⟨x, .kind k⟩ ∈ X → Traced counter g input? X x k
  refine Analysis.solve_run_induct (I := I) hg.coherent (fun u X x k hX hk => ?_)
    (fun input? e X Z hI he hX hZ w W x k hW hk => ?_) hr u X x k hX hk
  · dsimp only at hX
    split at hX
    case isTrue hu =>
      cases hX
      have hfound : ⟨x, .kind k⟩ ∈ (dependence counter).leaving g g.start
          (counterFacts counter g.start) := by
        rw [leaving_start_eq hg]
        exact hk
      exact ⟨g.start, g.start, counterFacts counter g.start, (mem_counterFacts hk).2.1, ⟨_, hfound⟩,
        Or.inl ⟨rfl, rfl⟩, if_pos rfl, Or.inl hk⟩
    case isFalse => cases hX
  · have he := (mem_flowsFrom_dependence hg).1 he
    have hmerge : ∀ Y, input? e.target = some Y → ∃ L, Z = merge Y L := by
      intro Y hY
      obtain ⟨hnone, -⟩ | ⟨Y', hY', rfl⟩ := hZ
      · rw [hnone] at hY
        cases hY
      · cases Option.some_inj.1 (hY'.symm.trans hY)
        exact ⟨_, rfl⟩
    dsimp only at hW
    split at hW
    case isFalse => exact (hI w W x k hW hk).arrive hmerge
    case isTrue hw =>
      cases hW
      obtain ⟨-, rfl⟩ | ⟨Y, hY, rfl⟩ := hZ
      · exact traced_leaving hg he (fun k => hI _ X x k hX) hmerge (fun _ h => h) hk hk
      · -- The kind was at the target before, or it has just arrived.
        obtain ⟨hkY | hkL, -⟩ := kind_mem_merge.1 hk
        · exact ((hI _ Y x k hY hkY).arrive hmerge).mono
            fun n hn => definition_mem_merge.2 (Or.inl hn)
        · exact traced_leaving hg he (fun k => hI _ X x k hX) hmerge
            (fun n hn => definition_mem_merge.2 (Or.inr hn)) hkL hk

/-! ### Paths without another definition -/

/-- Control passes from a node to another one, and the first gives a variable no value. -/
def Passes (g : FlowGraph) (x : String) (u v : Nat) : Prop :=
  ⟨u, v⟩ ∈ g.edges ∧ g.defined? u ≠ some x

/-- A definition that reaches a node does so along a path without another one. -/
theorem exists_passes (hg : g.IsGraphOf name body) (hr : (dependence counter).solve g cap = .ok r)
    (hX : r.input? u = some X) (hd : ⟨x, .definition d⟩ ∈ X) :
    ∃ h, LeadsTo g d h ∧ Relation.ReflTransGen (Passes g x) h u := by
  let P : Nat → OrderedSet Descriptor → Prop := fun u X => ∀ x d, ⟨x, .definition d⟩ ∈ X →
    ∃ h, LeadsTo g d h ∧ Relation.ReflTransGen (Passes g x) h u
  refine Analysis.solve_induct (P := P) hg.coherent (fun x d hd => ?_) (fun e he X hX x d hd => ?_)
    (fun u X Y hX hY x d hd => ?_) hr hX x d hd
  · rw [(mem_counterFacts hd).2.2 d rfl]
    exact ⟨g.start, Or.inl ⟨rfl, rfl⟩, .refl⟩
  · have he := (mem_flowsFrom_dependence hg).1 he
    by_cases hu : g.defined? e.source = some x
    · rw [(definition_mem_leaving hg hu).1 hd]
      exact ⟨e.target, Or.inr ⟨by rw [hu]; rfl, he⟩, .refl⟩
    · obtain ⟨h, hleads, hpath⟩ := hX x d ((mem_leaving_of_ne hg hu).1 hd)
      exact ⟨h, hleads, hpath.tail ⟨he, hu⟩⟩
  · obtain hd | hd := definition_mem_merge.1 hd
    · exact hX x d hd
    · exact hY x d hd

/-- Along an edge, definitions are kept, and so are kinds if there is only one definition. -/
theorem absorbed_of_edge (hg : g.IsGraphOf name body)
    (hr : (dependence counter).solve g cap = .ok r) (he : ⟨u, v⟩ ∈ g.edges)
    (hX : r.input? u = some X) :
    ∃ Y, r.input? v = some Y ∧
      (∀ x n, ⟨x, .definition n⟩ ∈ (dependence counter).leaving g u X →
        ⟨x, .definition n⟩ ∈ Y) ∧
      (∀ x k, ⟨x, .kind k⟩ ∈ Y → DefinedOnce Y x) ∧
      ∀ x k, ⟨x, .kind k⟩ ∈ (dependence counter).leaving g u X → DefinedOnce Y x →
        ⟨x, .kind k⟩ ∈ Y := by
  have hflow : ⟨u, v⟩ ∈ (dependence counter).direction.flowsFrom g u :=
    (mem_flowsFrom_dependence hg).2 he
  obtain ⟨Y, hY, habsorbs⟩ :=
    (Analysis.solve_stable (isJoin_dependence counter g) hg.coherent hr).2 ⟨u, v⟩ hflow X hX
  exact ⟨Y, hY, merge_eq_left_iff.1 habsorbs⟩

/-- Along a path without a definition, definitions are kept, and so are kinds if there is only one
definition. -/
theorem mem_of_passes (hg : g.IsGraphOf name body) (hr : (dependence counter).solve g cap = .ok r)
    (hpath : Relation.ReflTransGen (Passes g x) u v) (hX : r.input? u = some X) :
    ∃ Y, r.input? v = some Y ∧ (∀ n, ⟨x, .definition n⟩ ∈ X → ⟨x, .definition n⟩ ∈ Y) ∧
      (DefinedOnce Y x → ∀ k, ⟨x, .kind k⟩ ∈ X → ⟨x, .kind k⟩ ∈ Y) := by
  induction hpath with
  | refl => exact ⟨X, hX, fun _ h => h, fun _ _ h => h⟩
  | @tail v w _ hstep ih =>
    obtain ⟨he, hv⟩ := hstep
    obtain ⟨Y, hY, hdefinitions, hkinds⟩ := ih
    obtain ⟨Z, hZ, hdef, -, hkind⟩ := absorbed_of_edge hg hr he hY
    have hnext : ∀ n, ⟨x, .definition n⟩ ∈ Y → ⟨x, .definition n⟩ ∈ Z := fun n hn =>
      hdef x n ((mem_leaving_of_ne hg hv).2 hn)
    refine ⟨Z, hZ, fun n hn => hnext n (hdefinitions n hn), fun honce k hk => ?_⟩
    have hk := hkinds (honce.of_definitions hnext) k hk
    exact hkind x k ((mem_leaving_of_ne hg hv).2 hk) honce

/-- **A node that assigns a variable nothing lets through what is known behind it**, if it lets a
definition of the variable through. -/
theorem kind_mem_of_not_assigned (hg : g.IsGraphOf name body)
    (hr : (dependence counter).solve g cap = .ok r) (he : ⟨u, v⟩ ∈ g.edges)
    (hX : r.input? u = some X) (hY : r.input? v = some Y)
    (hd : ⟨x, .definition d⟩ ∈ (dependence counter).leaving g u X) (hk : ⟨x, .kind k⟩ ∈ Y)
    (hassign : ∀ value, g.instr? u ≠ some (.assign (.var x) value)) :
    ⟨x, .kind k⟩ ∈ (dependence counter).leaving g u X := by
  obtain ⟨Y', hY', hdef, honce, -⟩ := absorbed_of_edge hg hr he hX
  cases Option.some_inj.1 (hY'.symm.trans hY)
  have honce := honce x k hk
  obtain ⟨d', h, Z, hd', ⟨W, hfound⟩, hleads, hZ, hheld⟩ := traced_of_solve hg hr hY hk
  obtain rfl : d' = d := honce d' d hd' (hdef x d hd)
  by_cases hu : g.defined? u = some x
  · -- The node declares the variable, and nothing was ever found there.
    rw [(definition_mem_leaving hg hu).1 hd] at hfound
    exact absurd hfound (kind_not_mem_leaving hg hu hassign)
  · rw [mem_leaving_of_ne hg hu] at hd ⊢
    obtain ⟨h', hleads', hpath⟩ := exists_passes hg hr hX hd
    obtain rfl := hleads.unique hg hleads'
    obtain ⟨X', hX', hdefinitions, hkinds⟩ := mem_of_passes hg hr hpath hZ
    cases Option.some_inj.1 (hX'.symm.trans hX)
    have honceX : DefinedOnce X x :=
      honce.of_definitions fun n hn => hdef x n ((mem_leaving_of_ne hg hu).2 hn)
    have honceZ : DefinedOnce Z x := honceX.of_definitions hdefinitions
    exact hkinds honceX k (hheld.resolve_right fun h => h honceZ)

end Flow

end ParLoop
