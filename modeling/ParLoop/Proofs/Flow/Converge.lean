import Mathlib.Data.DFinsupp.WellFounded
import Mathlib.Data.Set.Card
import Mathlib.Order.WithBot
import ParLoop.Flow.Available
import ParLoop.Flow.Copies
import ParLoop.Proofs.Flow.Aliases
import ParLoop.Proofs.Flow.Renamed
import ParLoop.Proofs.Flow.Solution
import ParLoop.Proofs.FlowGraph.Program

/-!
# Flow problems converge

A solver comes to an end on every graph, and what it finds does not depend on how many visits it is
allowed: there is a number of visits from which on one and the same solution is found, and below
which none is (`Analysis.Converges`). This is so for all analyses, on the graph of every program and
of every procedure (`solve_converges`).

* `Worklist.queue` lists the flows to be visited. A visit takes one away, and pushes others only
  where the facts of a node change.
* Facts can change only as long as there is room for it (`Analysis.converges`). Where they are
  merged by intersection the number of facts is room enough, whatever the transfer function
  (`Analysis.converges_of_inter`).
* For other merges the transfer functions are not monotone, and facts may be lost as well as added.
  What grows is what a set absorbs: each change absorbs a set that was not absorbed before, and none
  is lost. If all facts are taken from a finite list, only finitely many sets can arrive
  (`Analysis.converges_of_supply`).
-/

namespace ParLoop

namespace Flow

/-! ### The worklist -/

namespace Worklist

variable {flowsFrom : Nat → List Edge} {w rest : Worklist} {e : Edge}

/-- The flows to be visited, in this order as long as no others are pushed. -/
def queue (flowsFrom : Nat → List Edge) (w : Worklist) : List Edge :=
  w.flows ++ w.nodes.flatMap flowsFrom

theorem queue_of_nextOfNodes {nodes : List Nat} (h : nextOfNodes flowsFrom nodes = some (e, rest)) :
    nodes.flatMap flowsFrom = e :: rest.queue flowsFrom := by
  induction nodes with
  | nil => cases h
  | cons u nodes ih =>
    rw [nextOfNodes] at h
    rw [List.flatMap_cons]
    split at h
    case h_1 hu => rw [hu, List.nil_append, ih h]
    case h_2 hu =>
      cases h
      rw [hu]
      rfl

/-- The next flow is the first of the queue. -/
theorem queue_of_next (h : w.next flowsFrom = some (e, rest)) :
    w.queue flowsFrom = e :: rest.queue flowsFrom := by
  unfold next at h
  split at h
  case h_1 hw =>
    cases h
    rw [queue, hw]
    rfl
  case h_2 hw => rw [queue, hw, List.nil_append, queue_of_nextOfNodes h]

end Worklist

variable {F : Type} [Ord F] [DecidableEq F] {a : Analysis F} {g : FlowGraph}

/-! ### The number of visits -/

namespace Analysis

/-- A flow problem has one solution on a graph, which is found if and only if the solver is allowed
as many visits as it takes. -/
def Converges (a : Analysis F) (g : FlowGraph) : Prop :=
  ∃ (n : Nat) (r : Solution F), r.visits = n ∧ (∀ cap ≥ n, a.solve g cap = .ok r) ∧
    ∀ cap < n, a.solve g cap = .error (.notConverged a.name cap)

theorem visits_visit (s : Progress F) (e : Edge) (rest : Worklist) :
    (a.visit g s e rest).visits = s.visits + 1 := by
  unfold visit
  dsimp only
  split
  · rfl
  · split <;> rfl

/-- A run that comes to an end does so with every number of visits that is allowed, unless it is too
small. -/
theorem run_eq_of_run {n : Nat} {s t : Progress F} (h : a.run g n s = some t) :
    s.visits ≤ t.visits ∧
      ∀ m, a.run g m s = if t.visits ≤ s.visits + m then some t else none := by
  induction n generalizing s with
  | zero =>
    rw [run] at h
    split at h
    case h_1 hnext =>
      cases h
      exact ⟨le_rfl, fun m => by simp [run, hnext]⟩
    case h_2 => cases h
  | succ n ih =>
    rw [run] at h
    split at h
    case h_1 hnext =>
      cases h
      exact ⟨le_rfl, fun m => by simp [run, hnext]⟩
    case h_2 e rest hnext =>
      obtain ⟨hle, hrun⟩ := ih h
      rw [visits_visit] at hle hrun
      refine ⟨by omega, fun m => ?_⟩
      rw [run, hnext]
      cases m with
      | zero => rw [if_neg (by omega)]
      | succ m =>
        dsimp only
        rw [hrun, Nat.add_right_comm, Nat.add_assoc]

/-- A flow problem converges if a run comes to an end. -/
theorem converges_of_run {n : Nat} {t : Progress F} (h : a.run g n (a.init g) = some t) :
    a.Converges g := by
  have hrun : ∀ cap, a.run g cap (a.init g) = if t.visits ≤ cap then some t else none := by
    intro cap
    rw [(run_eq_of_run h).2 cap, show (a.init g).visits = 0 from rfl, Nat.zero_add]
  refine ⟨t.visits, ⟨t.inputs, t.inputs.mapIdx fun node facts => facts.map (a.leaving g node),
    t.visits⟩, rfl, fun cap hcap => ?_, fun cap hcap => ?_⟩
  · rw [solve, hrun, if_pos hcap]
  · rw [solve, hrun, if_neg (Nat.not_le_of_lt hcap)]

end Analysis

/-! ### Room for changes -/

/-- How far the facts of each node can still change. Where nothing has arrived, this has no
bound. -/
def Progress.heights (s : Progress F) (g : FlowGraph) (room : OrderedSet F → Nat) :
    Fin g.size → WithTop Nat :=
  fun v => (s.input? v).elim ⊤ fun x => (room x : WithTop Nat)

/-- How far a run is from its end: what matters first is how far facts can change, then how many
flows are to be visited. -/
def Analysis.rank (a : Analysis F) (g : FlowGraph) (room : OrderedSet F → Nat) (s : Progress F) :
    (Fin g.size → WithTop Nat) ×ₗ Nat :=
  toLex (s.heights g room, (s.worklist.queue (a.direction.flowsFrom g)).length)

namespace Analysis

variable {P : OrderedSet F → Prop} {room : OrderedSet F → Nat}

omit [DecidableEq F] in
/-- A visit that leaves the facts as they are takes a flow from the queue. -/
theorem rank_lt_of_queue {s t : Progress F} {e : Edge} {rest : Worklist}
    (hnext : s.worklist.next (a.direction.flowsFrom g) = some (e, rest))
    (hinput : t.input? = s.input?) (hworklist : t.worklist = rest) :
    a.rank g room t < a.rank g room s := by
  refine Prod.Lex.toLex_lt_toLex.2 (Or.inr ⟨?_, ?_⟩)
  · unfold Progress.heights
    rw [hinput]
  · rw [Worklist.queue_of_next hnext, hworklist]
    exact Nat.lt_succ_self _

omit [DecidableEq F] in
/-- A visit that changes the facts of a node leaves less room there. -/
theorem rank_lt_of_change {s t : Progress F} {u : Nat} (hu : u < g.size) {z : OrderedSet F}
    (hinput : ∀ node, t.input? node = if node = u then some z else s.input? node)
    (hroom : ∀ y, s.input? u = some y → room z < room y) : a.rank g room t < a.rank g room s := by
  have hlt : t.heights g room ⟨u, hu⟩ < s.heights g room ⟨u, hu⟩ := by
    unfold Progress.heights
    rw [hinput, if_pos rfl]
    cases hy : s.input? u with
    | none => exact WithTop.coe_lt_top _
    | some y => exact WithTop.coe_lt_coe.2 (hroom y hy)
  refine Prod.Lex.toLex_lt_toLex.2 (Or.inl (Pi.lt_def.2 ⟨fun v => ?_, ⟨u, hu⟩, hlt⟩))
  show t.heights g room v ≤ s.heights g room v
  by_cases hv : v = ⟨u, hu⟩
  · rw [hv]
    exact hlt.le
  · have hne : (v : Nat) ≠ u := fun h => hv (Fin.ext h)
    unfold Progress.heights
    rw [hinput, if_neg hne]

/-- **Every visit brings a run nearer to its end.** -/
theorem rank_visit_lt (hg : g.Coherent) (hkeeps : a.Keeps g fun _ => P)
    (hroom : ∀ x y, P x → P y → ¬ a.Absorbs x y → room (a.merge x y) < room x) {s : Progress F}
    (hs : s.Satisfies a g fun input? => ∀ node x, input? node = some x → P x) {e : Edge}
    {rest : Worklist} (hnext : s.worklist.next (a.direction.flowsFrom g) = some (e, rest)) :
    a.rank g room (a.visit g s e rest) < a.rank g room s := by
  have he := (hs.real.next (fun u d hd => Direction.source_of_mem_flowsFrom hd) hnext).1
  rcases visit_cases hg hs.size_eq he rest with ⟨-, hinput, hw⟩ | ⟨-, -, -, -, -, hinput, hw⟩ |
    ⟨x, z, hx, hz, hinput, -⟩
  · exact rank_lt_of_queue hnext hinput hw
  · exact rank_lt_of_queue hnext hinput hw
  · by_cases habsorbs : ∃ y, s.input? e.target = some y ∧ a.Absorbs y (a.leaving g e.source x)
    · obtain ⟨y, hy, hyx⟩ := habsorbs
      obtain ⟨hinput, hw⟩ := visit_of_absorbs hx hy hyx rest
      exact rank_lt_of_queue hnext hinput hw
    · refine rank_lt_of_change (Direction.lt_size_of_mem_flowsFrom hg he).2 hinput fun y hy => ?_
      rcases hz with ⟨hnone, -⟩ | ⟨y', hy', rfl⟩
      · cases hnone.symm.trans hy
      · cases hy'.symm.trans hy
        exact hroom y _ (hs.holds _ _ hy) (hkeeps.flow e he x (hs.holds _ _ hx))
          fun hyx => habsorbs ⟨y, hy, hyx⟩

/-- A run comes to an end from every state whose facts leave room. -/
theorem exists_run (hg : g.Coherent) (hkeeps : a.Keeps g fun _ => P)
    (hroom : ∀ x y, P x → P y → ¬ a.Absorbs x y → room (a.merge x y) < room x) {s : Progress F}
    (hs : s.Satisfies a g fun input? => ∀ node x, input? node = some x → P x) :
    ∃ n t, a.run g n s = some t := by
  induction hrank : a.rank g room s using WellFoundedLT.induction generalizing s with
  | ind rank ih =>
    cases hnext : s.worklist.next (a.direction.flowsFrom g) with
    | none => exact ⟨0, s, by rw [run, hnext]⟩
    | some step =>
      obtain ⟨e, rest⟩ := step
      have hlt := rank_visit_lt hg hkeeps hroom hs hnext
      obtain ⟨n, t, hrun⟩ :=
        ih _ (hrank ▸ hlt) (visit_satisfies hg hkeeps.holds_arrive hs hnext) rfl
      exact ⟨n + 1, t, by rw [run, hnext]; exact hrun⟩

/-- **A flow problem converges if every change of facts leaves less room for others.** -/
theorem converges (room : OrderedSet F → Nat) (hg : g.Coherent) (hkeeps : a.Keeps g fun _ => P)
    (hroom : ∀ x y, P x → P y → ¬ a.Absorbs x y → room (a.merge x y) < room x) :
    a.Converges g := by
  obtain ⟨n, t, hrun⟩ := exists_run hg hkeeps hroom (init_satisfies hg hkeeps.holds_init)
  exact converges_of_run hrun

/-- What holds on every path can always be found. -/
theorem converges_of_inter [Std.TransOrd F] [Std.LawfulEqOrd F] (hg : g.Coherent)
    (hmerge : a.merge = OrderedSet.inter) : a.Converges g := by
  refine converges OrderedSet.size hg (a.keeps_true g) fun x y _ _ hxy => ?_
  have hlost : ∃ f ∈ x.toList, ¬ (y.contains f = true) := by
    by_contra hall
    refine hxy ?_
    show a.merge x y = x
    rw [hmerge]
    ext f
    rw [OrderedSet.mem_inter, ← OrderedSet.contains_iff (s := y)]
    exact ⟨And.left, fun hf => ⟨hf, by_contra fun h => hall ⟨f, hf, h⟩⟩⟩
  rw [hmerge]
  exact List.length_filter_lt_length_iff_exists.2 hlost

/-- The sets of facts of a list that a set does not absorb. -/
def unabsorbed (a : Analysis F) (supply : List F) (x : OrderedSet F) : Set (OrderedSet F) :=
  {y | (∀ f ∈ y, f ∈ supply) ∧ ¬ a.Absorbs x y}

omit [DecidableEq F] in
theorem finite_unabsorbed [Std.TransOrd F] [Std.LawfulEqOrd F] (supply : List F)
    (x : OrderedSet F) : (a.unabsorbed supply x).Finite := by
  refine Set.Finite.of_injOn (f := fun y : OrderedSet F => {f | f ∈ y})
    (t := {s | s ⊆ {f | f ∈ supply}}) (fun y hy => hy.1) (fun y _ z _ hyz => ?_)
    supply.finite_toSet.finite_subsets
  ext f
  exact Set.ext_iff.1 hyz f

/-- **A flow problem whose facts are taken from a list converges**, if merging is a join. -/
theorem converges_of_supply [Std.TransOrd F] [Std.LawfulEqOrd F] (hg : g.Coherent)
    (ha : a.IsJoin g) {supply : List F} (hkeeps : a.Keeps g fun _ x => ∀ f ∈ x, f ∈ supply) :
    a.Converges g := by
  refine converges (fun x => (a.unabsorbed supply x).ncard) hg hkeeps
    fun x y _ hy hxy => ?_
  refine Set.ncard_lt_ncard ⟨fun w hw => ?_, fun hsubset => ?_⟩ (finite_unabsorbed supply x)
  · exact ⟨hw.1, fun hxw => hw.2 (ha.merge_absorbs x w y hxw)⟩
  · exact (hsubset ⟨hy, hxy⟩).2 (ha.absorbs_merge x y)

end Analysis

end Flow

/-! ### The facts of a graph -/

/-- The variables that an instruction defines or reads. -/
def Instr.usedVars (i : Instr) : List String :=
  i.defined?.toList ++ i.expressions.flatMap Expr.occurrences

theorem Instr.mem_usedVars_of_defined? {i : Instr} {x : String} (h : i.defined? = some x) :
    x ∈ i.usedVars := by
  simp [usedVars, h]

/-- The variables that the instructions of a graph define or read. -/
def FlowGraph.usedVars (g : FlowGraph) : List String :=
  (g.nodes.toList.filterMap Node.instr?).flatMap Instr.usedVars

theorem FlowGraph.mem_usedVars {g : FlowGraph} {node : Nat} {n : Node} {i : Instr} {x : String}
    (hn : g.nodes[node]? = some n) (hi : n.instr? = some i) (hx : x ∈ i.usedVars) :
    x ∈ g.usedVars := by
  have hmem : n ∈ g.nodes.toList := List.mem_of_getElem? (by rw [Array.getElem?_toList, hn])
  exact List.mem_flatMap.2 ⟨i, List.mem_filterMap.2 ⟨n, hmem, hi⟩, hx⟩

namespace Flow

variable {g : FlowGraph}

/-- Facts that leave a node have reached it, or its transfer function gives them. -/
theorem Analysis.mem_leaving {F : Type} [Ord F] {a : Analysis F} {node : Nat} {x : OrderedSet F}
    {f : F} (h : f ∈ a.leaving g node x) :
    f ∈ x ∨ ∃ n, g.nodes[node]? = some n ∧ f ∈ a.transfer g node n x := by
  obtain ⟨-, heq⟩ | ⟨n, p, -, -, heq⟩ | ⟨n, hn, -, heq⟩ := a.leaving_forms g node <;> rw [heq] at h
  · exact Or.inl h
  · exact Or.inl (OrderedSet.mem_filter.1 h).1
  · exact Or.inr ⟨n, hn, h⟩

/-! ### Storages of names -/

/-- A name that gets a storage at a node gets one that is known already, one of the outside names,
or that of a variable in the instruction. -/
theorem mem_rebindAt {outside facts : OrderedSet Alias} {root x : String} {n : Node} {t : Expr}
    (h : ⟨x, t⟩ ∈ rebindAt outside root n facts) :
    ⟨x, t⟩ ∈ facts ∨ ⟨x, t⟩ ∈ outside ∨ ∃ i, n.instr? = some i ∧ i.defined? = some x ∧
      ((∃ y, ⟨y, t⟩ ∈ facts) ∨ ∃ y ∈ i.usedVars, t = .var y) := by
  obtain ⟨procedure, kind⟩ := n
  cases kind with
  | start =>
    unfold rebindAt at h
    dsimp only at h
    split at h
    · exact Or.inl h
    · exact (OrderedSet.mem_union.1 h).imp_right Or.inl
  | instr i =>
    cases i with
    | declare y =>
      rcases mem_rebind.1 h with ⟨hold, -⟩ | ⟨rfl, ht⟩
      · exact Or.inl hold
      · exact Or.inr (Or.inr ⟨_, rfl, rfl,
          Or.inr ⟨x, Instr.mem_usedVars_of_defined? rfl, List.mem_singleton.1 ht⟩⟩)
    | assign target value =>
      cases target with
      | var y =>
        rcases mem_rebind.1 h with ⟨hold, -⟩ | ⟨rfl, ht⟩
        · exact Or.inl hold
        · refine Or.inr (Or.inr ⟨_, rfl, rfl, ?_⟩)
          cases hvalue : value.asVariable? with
          | none =>
            obtain ⟨z, -, hz⟩ := (mem_denoted_of_not_var hvalue).1 ht
            exact Or.inl ⟨z, hz⟩
          | some z =>
            obtain rfl : value = .var z := by
              cases value <;> cases hvalue
              rfl
            rcases mem_denoted_var.1 ht with hknown | ⟨-, rfl⟩
            · exact Or.inl ⟨z, hknown⟩
            · exact Or.inr ⟨z, by simp [Instr.usedVars, Instr.expressions], rfl⟩
      | _ => exact Or.inl h
    | _ => exact Or.inl h
  | _ => exact Or.inl h

/-- What names may denote in a graph. -/
def aliasSupply (outside : OrderedSet Alias) (g : FlowGraph) : List Alias :=
  (outside.toList.map Alias.source ++ g.usedVars).flatMap fun x =>
    (outside.toList.map Alias.target ++ g.usedVars.map Expr.var).map (Alias.mk x)

theorem mem_aliasSupply {outside : OrderedSet Alias} {x : String} {t : Expr} :
    ⟨x, t⟩ ∈ aliasSupply outside g ↔
      x ∈ outside.toList.map Alias.source ++ g.usedVars ∧
      t ∈ outside.toList.map Alias.target ++ g.usedVars.map Expr.var := by
  simp only [aliasSupply, List.mem_flatMap, List.mem_map (f := Alias.mk _), Alias.mk.injEq]
  constructor
  · rintro ⟨y, hy, u, hu, rfl, rfl⟩
    exact ⟨hy, hu⟩
  · rintro ⟨hx, ht⟩
    exact ⟨x, hx, t, ht, rfl, rfl⟩

theorem mem_aliasSupply_of_mem {outside : OrderedSet Alias} {f : Alias} (hf : f ∈ outside) :
    f ∈ aliasSupply outside g :=
  mem_aliasSupply.2 ⟨List.mem_append_left _ (List.mem_map_of_mem hf),
    List.mem_append_left _ (List.mem_map_of_mem hf)⟩

/-- Storages are taken from a list. -/
theorem keeps_aliases (outside : OrderedSet Alias) (g : FlowGraph) :
    (aliases outside).Keeps g fun _ x => ∀ f ∈ x, f ∈ aliasSupply outside g where
  origin f hf := mem_aliasSupply_of_mem hf
  flow e _ x hx f hf := by
    rcases Analysis.mem_leaving hf with hf | ⟨n, hn, hf⟩
    · exact hx f hf
    · obtain ⟨y, t⟩ := f
      rcases mem_rebindAt hf with hf | hf | ⟨i, hi, hy, ht⟩
      · exact hx _ hf
      · exact mem_aliasSupply_of_mem hf
      · refine mem_aliasSupply.2 ⟨List.mem_append_right _
          (FlowGraph.mem_usedVars hn hi (Instr.mem_usedVars_of_defined? hy)), ?_⟩
        rcases ht with ⟨z, hz⟩ | ⟨z, hz, rfl⟩
        · exact (mem_aliasSupply.1 (hx _ hz)).2
        · exact List.mem_append_right _
            (List.mem_map_of_mem (FlowGraph.mem_usedVars hn hi hz))
  merge _ x y hx hy f hf := (OrderedSet.mem_union.1 hf).elim (hx f) (hy f)

/-! ### Loop dependence -/

/-- A descriptor that a node gives is about the variable that the instruction there defines, and a
definition among these is the node. -/
theorem mem_describe {node : Nat} {n : Node} {facts : OrderedSet Descriptor} {d : Descriptor}
    (h : d ∈ describe node n facts) :
    d ∈ facts ∨ ∃ i, n.instr? = some i ∧ i.defined? = some d.name ∧
      ∀ m, d.mark = .definition m → m = node := by
  have hredefine : ∀ {x kinds}, d ∈ redefine facts x node kinds →
      d ∈ facts ∨ d.name = x ∧ ∀ m, d.mark = .definition m → m = node := by
    intro x kinds hd
    rcases mem_redefine.1 hd with ⟨hd, -⟩ | rfl | ⟨k, -, rfl⟩
    · exact Or.inl hd
    · exact Or.inr ⟨rfl, fun m hm => (Mark.definition.inj hm).symm⟩
    · exact Or.inr ⟨rfl, fun m hm => by cases hm⟩
  obtain ⟨procedure, kind⟩ := n
  unfold describe at h
  split at h
  case h_1 x hkind =>
    cases hkind
    exact (hredefine h).imp_right fun hd => ⟨_, rfl, congrArg some hd.1.symm, hd.2⟩
  case h_2 x value hkind =>
    cases hkind
    exact (hredefine h).imp_right fun hd => ⟨_, rfl, congrArg some hd.1.symm, hd.2⟩
  case h_3 => exact Or.inl h

/-- What can be said of the variables of a loop. -/
def descriptorSupply (counter : String) (g : FlowGraph) : List Descriptor :=
  (counter :: g.usedVars).flatMap fun x =>
    (Kind.all.map Mark.kind ++ (List.range g.size).map Mark.definition).map (Descriptor.mk x)

theorem mem_descriptorSupply {counter : String} {d : Descriptor}
    (hname : d.name ∈ counter :: g.usedVars) (hmark : ∀ m, d.mark = .definition m → m < g.size) :
    d ∈ descriptorSupply counter g := by
  obtain ⟨x, mark⟩ := d
  refine List.mem_flatMap.2 ⟨x, hname, List.mem_map_of_mem ?_⟩
  cases mark with
  | kind k => exact List.mem_append_left _ (List.mem_map_of_mem (Kind.mem_all k))
  | definition m =>
    exact List.mem_append_right _ (List.mem_map_of_mem (List.mem_range.2 (hmark m rfl)))

/-- Descriptors are taken from a list. -/
theorem keeps_dependence (counter : String) (hg : g.Coherent) :
    (dependence counter).Keeps g fun _ x => ∀ d ∈ x, d ∈ descriptorSupply counter g where
  origin d hd := by
    rcases mem_redefine.1 hd with ⟨hd, -⟩ | rfl | ⟨k, -, rfl⟩
    · exact absurd hd (OrderedSet.not_mem_empty d)
    · refine mem_descriptorSupply List.mem_cons_self fun m hm => ?_
      cases hm
      exact hg.start_lt
    · exact mem_descriptorSupply List.mem_cons_self fun m hm => by cases hm
  flow e he x hx d hd := by
    rcases Analysis.mem_leaving hd with hd | ⟨n, hn, hd⟩
    · exact hx d hd
    · rcases mem_describe hd with hd | ⟨i, hi, hname, hmark⟩
      · exact hx d hd
      · refine mem_descriptorSupply (List.mem_cons_of_mem _ (FlowGraph.mem_usedVars hn hi
          (Instr.mem_usedVars_of_defined? hname))) fun m hm => ?_
        rw [hmark m hm]
        exact (Direction.lt_size_of_mem_flowsFrom hg he).1
  merge _ x y hx hy d hd := (Descriptor.mem_merge.1 hd).1.elim (hx d) (hy d)

/-- **Every flow problem converges**, on the graph of every program, with and without the bodies of
called procedures, and on the graph of every procedure: loop dependence, the storages of names
whatever those of the outside names, available computations, copies and declared names. -/
theorem solve_converges
    (hg : (∃ p interprocedural calls, FlowGraph.ofProgram p interprocedural = .ok (g, calls)) ∨
      ∃ f, FlowGraph.ofProcedure f = .ok g) :
    (∀ counter, (dependence counter).Converges g) ∧ (∀ outside, (aliases outside).Converges g) ∧
      available.Converges g ∧ copies.Converges g ∧
      ∀ known, (declared "declared-names" .edges OrderedSet.inter known).Converges g := by
  have hcoherent : g.Coherent := by
    rcases hg with ⟨p, interprocedural, calls, hg⟩ | ⟨f, hg⟩
    · exact FlowGraph.coherent_ofProgram hg
    · exact (FlowGraph.ofProcedure_isGraphOf hg).coherent
  exact ⟨fun counter => Analysis.converges_of_supply hcoherent (isJoin_dependence counter g)
      (keeps_dependence counter hcoherent),
    fun outside => Analysis.converges_of_supply hcoherent (Analysis.isJoin_of_union rfl g)
      (keeps_aliases outside g),
    Analysis.converges_of_inter hcoherent rfl, Analysis.converges_of_inter hcoherent rfl,
    fun known => Analysis.converges_of_inter hcoherent rfl⟩

/-- A loop without an end that calls a procedure which calls itself. -/
theorem solve_converges_recursive :
    let p : Program := { Program.ofBody "i" [.label "back",
      .assign (.var "x") (.call "f" [.var "x"]), .assign (.access "a" [.var "x"]) (.var "i"),
      .jump "back"] with
      procedures := .ofList [("f", ⟨"f", ["k"], [.assign (.var "$result_f")
        (.call "f" [.binary .add (.var "k") (.int 1)])]⟩)] }
    ∃ g calls, FlowGraph.ofProgram p true = .ok (g, calls) ∧ (dependence "i").Converges g ∧
      (aliases (.ofList [⟨"a", .var "a"⟩])).Converges g ∧ available.Converges g ∧
      copies.Converges g ∧ (declared "declared-names" .edges OrderedSet.inter ∅).Converges g := by
  intro p
  obtain ⟨⟨g, calls⟩, hg⟩ : ∃ r, FlowGraph.ofProgram p true = .ok r :=
    Outcome.exists_of_isOk (by decide +kernel)
  obtain ⟨hdependence, haliases, havailable, hcopies, hdeclared⟩ :=
    solve_converges (Or.inl ⟨p, true, calls, hg⟩)
  exact ⟨g, calls, hg, hdependence "i", haliases _, havailable, hcopies, hdeclared ∅⟩

end Flow

end ParLoop
