import ParLoop.Proofs.Optimize.OneToOne
import ParLoop.Proofs.Verify.Arrays
import ParLoop.Proofs.Verify.Storages

/-!
# The check under one-to-one names

The check of a loop with its names replaced one-to-one comes to the same result. The writes to
shared variables are the same (`checkWrites_replace`), every access is located at the same storages
(`locate_replace`) and has the same index (`indexOf_replace`), so the checks of the storages succeed
together (`checkArrays_replace`). In which order the storages are checked does not matter.
-/

namespace ParLoop

variable {σ τ : String → String}

namespace FlowGraph

theorem instr?_replace (σ : String → String) (g : FlowGraph) (node : Nat) :
    (g.replace σ).instr? node = (g.instr? node).map (Instr.rename ⟨σ, σ⟩) := by
  rw [instr?, instr?, getElem?_rename]
  cases g.nodes[node]? with
  | none => rfl
  | some n =>
    obtain ⟨name, kind⟩ := n
    cases kind <;> rfl

theorem instrNodes_replace (σ : String → String) (g : FlowGraph) :
    (g.replace σ).instrNodes = g.instrNodes.map fun e => (e.1, e.2.rename ⟨σ, σ⟩) := by
  have hnodes : (g.replace σ).nodes.toList = g.nodes.toList.map (Node.replace σ) := by
    simp [rename]
  rw [instrNodes, instrNodes, hnodes, List.zipIdx_map, List.filterMap_map, List.map_filterMap]
  refine List.filterMap_congr fun q _ => ?_
  obtain ⟨⟨name, kind⟩, k⟩ := q
  cases kind <;> rfl

end FlowGraph

/-- An access with names replaced. -/
def Access.replace (σ : String → String) (a : Access) : Access := a.renameAt ⟨σ, σ⟩ a.node

namespace Verify

/-! ### Indices -/

section Indices

variable (hσ : σ.Injective) (g : FlowGraph) (facts : Flow.Solution Descriptor)

include hσ

theorem copied?_replace (node : Nat) (x : String) :
    copied? (g.replace σ) node (σ x) = (copied? g node x).map σ := by
  unfold copied?
  rw [FlowGraph.instr?_replace]
  cases g.instr? node with
  | none => rfl
  | some i =>
    cases i with
    | assign target value =>
      cases target with
      | var y =>
        cases value with
        | var z =>
          simp only [Option.map_some, Instr.rename, Expr.rename, ne_eq, hσ.eq_iff]
          split <;> rfl
        | _ => rfl
      | _ => rfl
    | _ => rfl

theorem definitionsOf_factsAt_replace (node : Nat) (x : String) :
    Descriptor.definitionsOf ((facts.map (Descriptor.replace σ)).factsAt node) (σ x) =
      Descriptor.definitionsOf (facts.factsAt node) x := by
  rw [Flow.Solution.factsAt_map, Descriptor.definitionsOf_replace hσ]

theorem trace_replace (steps : Nat) (x : String) (node : Nat) :
    trace (g.replace σ) (facts.map (Descriptor.replace σ)) steps (σ x) node =
      (σ (trace g facts steps x node).1, (trace g facts steps x node).2) := by
  induction steps generalizing x node with
  | zero => simp only [trace, definitionsOf_factsAt_replace hσ]
  | succ steps ih =>
    simp only [trace, definitionsOf_factsAt_replace hσ]
    split
    case h_1 only _ =>
      rw [copied?_replace hσ]
      cases copied? g only x with
      | none => rfl
      | some source => exact ih source only
    case h_2 => rfl

end Indices

/-- An index with names replaced. -/
def Index.replace (σ : String → String) (i : Index) : Index :=
  ⟨i.dimension, i.expression.rename ⟨σ, σ⟩, i.definitions.map fun d => (σ d.1, d.2)⟩

theorem Index.replace_injective (hσ : σ.Injective) : (replace σ).Injective := by
  rintro ⟨d, e, xs⟩ ⟨d', e', xs'⟩ h
  simp only [replace, mk.injEq] at h
  obtain ⟨rfl, he, hxs⟩ := h
  have hpair : (fun d : String × OrderedSet Nat => (σ d.1, d.2)).Injective := by
    rintro ⟨x, s⟩ ⟨y, t⟩ heq
    simp only [Prod.mk.injEq] at heq
    rw [hσ heq.1, heq.2]
  rw [Expr.rename_injective hσ hσ he, List.map_injective_iff.2 hpair hxs]

theorem indexOf_replace (hσ : σ.Injective) (g : FlowGraph) (facts : Flow.Solution Descriptor)
    (a : Access) (array : String) (indices : List Expr) :
    Outcome.Maps (Index.replace σ) (indexOf g facts a array indices)
      (indexOf (g.replace σ) (facts.map (Descriptor.replace σ)) (a.replace σ) (σ array)
        (indices.map (Expr.rename ⟨σ, σ⟩))) := by
  have hvarying : ((indices.map (Expr.rename ⟨σ, σ⟩)).zipIdx.filter fun q =>
      Descriptor.isLoopDependent ((facts.map (Descriptor.replace σ)).factsAt a.node) q.1) =
        (indices.zipIdx.filter fun q =>
          Descriptor.isLoopDependent (facts.factsAt a.node) q.1).map
            (Prod.map (Expr.rename ⟨σ, σ⟩) id) := by
    rw [List.zipIdx_map, List.filter_map]
    refine congrArg _ (List.filter_congr fun q _ => ?_)
    simp only [Function.comp_apply, Prod.map, Flow.Solution.factsAt_map,
      Descriptor.isLoopDependent_replace hσ]
  have hfollow : ∀ x, trace (g.replace σ) (facts.map (Descriptor.replace σ)) (g.replace σ).size
      (σ x) a.node = (σ (trace g facts g.size x a.node).1, (trace g facts g.size x a.node).2) := by
    intro x
    rw [FlowGraph.size_rename]
    exact trace_replace hσ g facts g.size x a.node
  unfold indexOf
  dsimp only [Access.replace, Access.renameAt]
  rw [hvarying]
  generalize indices.zipIdx.filter
    (fun q => Descriptor.isLoopDependent (facts.factsAt a.node) q.1) = varying
  rcases varying with - | ⟨⟨e, dimension⟩, - | ⟨q, varying⟩⟩
  · exact Outcome.maps_error _ _
  · have hexpression :
        (e.substitute fun x => some (.var (trace g facts g.size x a.node).1)).rename ⟨σ, σ⟩ =
          (e.rename ⟨σ, σ⟩).substitute fun x => some (.var (trace (g.replace σ)
            (facts.map (Descriptor.replace σ)) (g.replace σ).size x a.node).1) :=
      Expr.rename_substitute (fun x => by rw [hfollow]; rfl) e
    have hdefinitions : (e.rename ⟨σ, σ⟩).occurrences.map (fun x => trace (g.replace σ)
        (facts.map (Descriptor.replace σ)) (g.replace σ).size x a.node) =
          (e.occurrences.map fun x => trace g facts g.size x a.node).map
            fun d => (σ d.1, d.2) := by
      rw [Expr.occurrences_rename, List.map_map, List.map_map]
      exact List.map_congr_left fun x _ => hfollow x
    intro i
    simp only [List.map_cons, List.map_nil, Prod.map, id, Except.ok.injEq, hdefinitions,
      ← hexpression, exists_eq_left']
    rfl
  · exact Outcome.maps_error _ _

/-! ### Accesses -/

theorem accesses_replace (σ : String → String) (g : FlowGraph) :
    accesses (g.replace σ) = (accesses g).map (Access.replace σ) := by
  rw [accesses, accesses, FlowGraph.instrNodes_replace, List.flatMap_map, List.map_flatMap]
  refine List.flatMap_congr fun e _ => ?_
  refine (accessesOf_rename ⟨σ, σ⟩ e.1 e.1 e.2).trans (List.map_congr_left fun a ha => ?_)
  obtain ⟨q, -, rfl⟩ := List.mem_map.1 ha
  rfl

/-- An access with its storages, with names replaced: the storages as such. -/
def Located.replace (σ τ : String → String) (l : Located) : Located :=
  ⟨l.access.replace σ, σ l.array, l.indices.map (Expr.rename ⟨σ, σ⟩),
    l.targets.map (Expr.rename ⟨τ, τ⟩)⟩

theorem aliasesAt_replace (hσ : σ.Injective) (storages : Flow.Solution Alias) (node : Nat)
    (x : String) : Outcome.Maps (OrderedSet.map (Expr.rename ⟨τ, τ⟩))
      (Flow.aliasesAt storages node x)
      (Flow.aliasesAt (storages.map (Alias.replace σ τ)) node (σ x)) := by
  have hmem : ∀ t, t ∈ Alias.targetsOf ((storages.map (Alias.replace σ τ)).factsAt node) (σ x) ↔
      ∃ u ∈ Alias.targetsOf (storages.factsAt node) x, u.rename ⟨τ, τ⟩ = t := by
    intro t
    rw [Alias.mem_targetsOf, Flow.Solution.factsAt_map, Flow.mem_map_replace hσ]
    simp only [Alias.mem_targetsOf]
  unfold Flow.aliasesAt
  generalize Alias.targetsOf (storages.factsAt node) x = known at hmem
  generalize Alias.targetsOf ((storages.map (Alias.replace σ τ)).factsAt node) (σ x) = known'
    at hmem
  match known, known' with
  | [], [] => exact Outcome.maps_error _ _
  | [], t :: _ =>
    obtain ⟨u, hu, -⟩ := (hmem t).1 List.mem_cons_self
    cases hu
  | u :: _, [] => cases (hmem _).2 ⟨u, List.mem_cons_self, rfl⟩
  | u :: us, t :: ts =>
    have hset : OrderedSet.ofList (t :: ts) =
        (OrderedSet.ofList (u :: us)).map (Expr.rename ⟨τ, τ⟩) := by
      refine OrderedSet.ext fun v => ?_
      rw [OrderedSet.mem_ofList, hmem, OrderedSet.mem_map]
      simp only [OrderedSet.mem_ofList]
    dsimp only
    rw [hset]
    exact Outcome.maps_ok _

theorem locate_replace (hσ : σ.Injective) (storages : Flow.Solution Alias) (a : Access) :
    Outcome.Maps (Option.map (Located.replace σ τ)) (locate storages a)
      (locate (storages.map (Alias.replace σ τ)) (a.replace σ)) := by
  obtain ⟨node, e, isWrite⟩ := a
  cases e with
  | access array indices =>
    cases indices with
    | nil => exact Outcome.maps_error _ _
    | cons i is =>
      have he : (Expr.access array (i :: is)).rename ⟨σ, σ⟩ =
          .access (σ array) ((i :: is).map (Expr.rename ⟨σ, σ⟩)) := by
        rw [Expr.rename, Expr.renameList_eq]
      have hlocated : ∀ ts : OrderedSet Expr,
          Located.replace σ τ ⟨⟨node, .access array (i :: is), isWrite⟩, array, i :: is, ts⟩ =
            ⟨⟨node, .access (σ array) ((i :: is).map (Expr.rename ⟨σ, σ⟩)), isWrite⟩, σ array,
              (i :: is).map (Expr.rename ⟨σ, σ⟩), ts.map (Expr.rename ⟨τ, τ⟩)⟩ := by
        intro ts
        rw [Located.replace, Access.replace, Access.renameAt, he]
      rw [Access.replace, Access.renameAt, he]
      refine (aliasesAt_replace hσ storages node array).bind fun ts => ?_
      have hok := Outcome.maps_ok (ε := AnalysisError) (φ := Option.map (Located.replace σ τ))
        (some ⟨⟨node, .access array (i :: is), isWrite⟩, array, i :: is, ts⟩)
      rw [Option.map_some, hlocated] at hok
      exact hok
  | _ => exact Outcome.maps_ok none

/-! ### Storages -/

section Storages

variable (hσ : σ.Injective) (hτ : τ.Injective) (g : FlowGraph) (facts : Flow.Solution Descriptor)
  (storages : Flow.Solution Alias)

include hσ

theorem checkTarget_replace (target target' : Expr) (group : List Located) :
    checkTarget (g.replace σ) (facts.map (Descriptor.replace σ)) target'
        (group.map (Located.replace σ τ)) = .ok none ↔
      checkTarget g facts target group = .ok none := by
  have hindices : Outcome.Maps (List.map (Index.replace σ))
      (group.mapM fun l => indexOf g facts l.access l.array l.indices)
      ((group.map (Located.replace σ τ)).mapM fun l => indexOf (g.replace σ)
        (facts.map (Descriptor.replace σ)) l.access l.array l.indices) :=
    Outcome.Maps.mapM (fun l => indexOf_replace hσ g facts l.access l.array l.indices) group
  have hwrite : ((group.map (Located.replace σ τ)).any fun l => l.access.isWrite) =
      group.any fun l => l.access.isWrite := by
    rw [List.any_map]
    rfl
  have hhead : ∀ indices : List Index, (∀ i ∈ indices.map (Index.replace σ),
      (indices.map (Index.replace σ)).head? = some i) ↔ ∀ i ∈ indices, indices.head? = some i := by
    intro indices
    rw [List.forall_mem_map, List.head?_map]
    refine forall₂_congr fun i _ => ?_
    rw [← Option.map_some, (Option.map_injective (Index.replace_injective hσ)).eq_iff]
  rw [checkTarget_eq_none, checkTarget_eq_none, hwrite]
  refine imp_congr_right fun _ => ?_
  constructor
  · rintro ⟨is, his, hall⟩
    obtain ⟨indices, hok, rfl⟩ := (hindices is).1 his
    exact ⟨indices, hok, (hhead indices).1 hall⟩
  · rintro ⟨indices, hok, hall⟩
    exact ⟨_, (hindices _).2 ⟨indices, hok, rfl⟩, (hhead indices).2 hall⟩

include hτ in
/-- **The check of the arrays under one-to-one names.** -/
theorem checkArrays_replace :
    checkArrays (g.replace σ) (facts.map (Descriptor.replace σ))
        (storages.map (Alias.replace σ τ)) = .ok none ↔
      checkArrays g facts storages = .ok none := by
  have hlocate := Outcome.Maps.mapM (locate_replace (τ := τ) hσ storages) (accesses g)
  have hreduce : ∀ all : List (Option Located),
      (all.map (Option.map (Located.replace σ τ))).reduceOption =
        all.reduceOption.map (Located.replace σ τ) := by
    intro all
    show List.filterMap id _ = (List.filterMap id all).map _
    rw [List.filterMap_map, List.map_filterMap]
    rfl
  have hgroup : ∀ (located : List Located) (t : Expr), (located.map (Located.replace σ τ)).filter
      (fun l => l.targets.contains (t.rename ⟨τ, τ⟩)) =
        (located.filter fun l => l.targets.contains t).map (Located.replace σ τ) := by
    intro located t
    rw [List.filter_map]
    refine congrArg _ (List.filter_congr fun l _ => ?_)
    exact OrderedSet.contains_map (Expr.rename_injective hτ hτ) l.targets t
  rw [checkArrays_eq_none, checkArrays_eq_none, accesses_replace]
  constructor
  · rintro ⟨all', hall', hcheck⟩
    obtain ⟨all, hall, rfl⟩ := (hlocate all').1 hall'
    refine ⟨all, hall, fun t ⟨l, hl, ht⟩ => ?_⟩
    rw [hreduce] at hcheck
    have hthis := hcheck (t.rename ⟨τ, τ⟩)
      ⟨l.replace σ τ, List.mem_map_of_mem hl, OrderedSet.mem_map_of_mem ht⟩
    rw [hgroup] at hthis
    exact (checkTarget_replace hσ g facts t _ _).1 hthis
  · rintro ⟨all, hall, hcheck⟩
    refine ⟨_, (hlocate _).2 ⟨all, hall, rfl⟩, ?_⟩
    rw [hreduce]
    rintro t' ⟨l', hl', ht'⟩
    obtain ⟨l, hl, rfl⟩ := List.mem_map.1 hl'
    obtain ⟨t, ht, rfl⟩ := OrderedSet.mem_map.1 ht'
    rw [hgroup]
    exact (checkTarget_replace hσ g facts t _ _).2 (hcheck t ⟨l, hl, ht⟩)

end Storages

/-! ### Writes -/

section Writes

variable (hσ : σ.Injective) (p : Program) (g : FlowGraph) (cap : Nat)

include hσ

theorem undeclaredWrites_replace (f : Procedure) (known : OrderedSet String) :
    undeclaredWrites (f.rename ⟨σ, σ⟩) (known.map σ) cap =
      (undeclaredWrites f known cap).map (OrderedSet.map σ) := by
  unfold undeclaredWrites
  rw [FlowGraph.ofProcedure_rename]
  cases hofProcedure : FlowGraph.ofProcedure f with
  | error e => rfl
  | ok g =>
    have hg := FlowGraph.ofProcedure_isGraphOf hofProcedure
    have hsolve := (Flow.renames_declared hσ (fun h => absurd h hg.not_joinsCalls)
      "declared-names" .edges known).solve_eq hg.coherent (Flow.Analysis.keeps_true _ g) cap
    simp only [Except.map, bind, Except.bind]
    rw [hsolve]
    cases (Flow.declared "declared-names" .edges OrderedSet.inter known).solve g cap with
    | error e => rfl
    | ok s =>
      show Except.ok _ = Except.ok _
      rw [FlowGraph.instrNodes_replace, List.filterMap_map, OrderedSet.map_ofList,
        List.map_filterMap]
      refine congrArg _ (congrArg _ (List.filterMap_congr fun q _ => ?_))
      obtain ⟨node, i⟩ := q
      cases i with
      | assign target value =>
        cases target with
        | var x =>
          show ((s.map σ).input? node).bind _ = ((s.input? node).bind _).map σ
          rw [Flow.Solution.input?_map]
          cases s.input? node with
          | none => rfl
          | some facts =>
            simp only [Option.map_some, Option.bind_some, OrderedSet.contains_map hσ]
            split <;> rfl
        | _ => rfl
      | _ => rfl

theorem sharedWritesOf_replace {name : String} (hname : name ≠ g.root → KeepsCallNames σ) :
    sharedWritesOf (p.replace σ) (g.replace σ) cap name =
      (sharedWritesOf p g cap name).map (OrderedSet.map σ) := by
  unfold sharedWritesOf
  rw [show (g.replace σ).root = g.root from rfl]
  split
  case isTrue => exact undeclaredWrites_replace hσ cap p.root ∅
  case isFalse hne =>
    rw [Program.replace, NameMap.find?_mapValues]
    cases p.procedures.find? name with
    | none => rfl
    | some f =>
      -- The result of a called procedure keeps its name.
      have hresult : σ (resultName f.name) = resultName f.name :=
        hname hne _ (Or.inr (Or.inl ⟨f.name, rfl⟩))
      have hown : OrderedSet.ofList (resultName f.name :: f.parameters.map σ) =
          (OrderedSet.ofList (resultName f.name :: f.parameters)).map σ := by
        rw [OrderedSet.map_ofList, List.map_cons, hresult]
      show undeclaredWrites (f.rename ⟨σ, σ⟩) (.ofList (resultName f.name :: f.parameters.map σ))
        cap = _
      rw [hown, undeclaredWrites_replace hσ]

omit hσ in
/-- What is collected over some names, if each of them finds the images. -/
theorem foldlM_union_replace {find find' : String → Except AnalysisError (OrderedSet String)}
    {names : List String} (h : ∀ name ∈ names, find' name = (find name).map (OrderedSet.map σ))
    (s : OrderedSet String) :
    names.foldlM (fun (s : OrderedSet String) name => return s.union (← find' name)) (s.map σ) =
      (names.foldlM (fun (s : OrderedSet String) name => return s.union (← find name)) s).map
        (OrderedSet.map σ) := by
  induction names generalizing s with
  | nil => rfl
  | cons name names ih =>
    obtain ⟨hname, hnames⟩ := List.forall_mem_cons.1 h
    rw [List.foldlM_cons, List.foldlM_cons, hname]
    cases find name with
    | error e => rfl
    | ok t =>
      have hrest := ih hnames (s.union t)
      rw [OrderedSet.map_union] at hrest
      exact hrest

/-- **The check of writes under one-to-one names.** -/
theorem checkWrites_replace
    (hnames : ∀ name ∈ g.boundaries.names, name ≠ g.root → KeepsCallNames σ) :
    checkWrites (p.replace σ) (g.replace σ) cap = .ok none ↔ checkWrites p g cap = .ok none := by
  have hwrites : sharedWrites (p.replace σ) (g.replace σ) cap =
      (sharedWrites p g cap).map (OrderedSet.map σ) :=
    foldlM_union_replace (fun name hname => sharedWritesOf_replace hσ p g cap (hnames name hname)) ∅
  unfold checkWrites
  rw [hwrites]
  cases sharedWrites p g cap with
  | error e => rfl
  | ok names =>
    show Except.ok (if (names.map σ).isEmpty = true then _ else _) = .ok none ↔
      Except.ok (if names.isEmpty = true then _ else _) = .ok none
    rw [OrderedSet.isEmpty_map]
    split <;> simp

end Writes

/-! ### Verdicts -/

section Verdicts

variable {p : Program} {g : FlowGraph} {calls : CallGraph} {interprocedural : Bool}

theorem arraysOf_replace (hσ : σ.Injective) (hp : p.SymbolsNamed)
    (hg : FlowGraph.ofProgram p interprocedural = .ok (g, calls))
    (hcalls : p.joinsCalls interprocedural = true → KeepsCallNames σ)
    (hassigns : AssignsOnly p.body []) (havoids : p.AvoidsDisplaced σ interprocedural g)
    (cap : Nat) :
    arraysOf (p.replace σ) (g.replace σ) cap = .ok none ↔ arraysOf p g cap = .ok none := by
  have hfacts := (Flow.renames_dependence hσ
    (fun h => hcalls (FlowGraph.joinsCalls_of_ofProgram hg h)) p.counter).solve_eq
      (FlowGraph.coherent_ofProgram hg) (Flow.Analysis.keeps_true _ g) cap
  have hstorages := Flow.solve_aliases_replace hσ hp hg hcalls hassigns havoids cap
  unfold arraysOf
  rw [show (p.replace σ).counter = σ p.counter from rfl, hfacts, hstorages]
  cases (Flow.dependence p.counter).solve g cap with
  | error e => exact ⟨nofun, nofun⟩
  | ok facts =>
    cases (Flow.aliases (AliasGroup.seeds (AliasGroup.ofProgram p))).solve g cap with
    | error e => exact ⟨nofun, nofun⟩
    | ok storages =>
      exact checkArrays_replace hσ (Program.storageName_injective hσ hp) g facts storages

/-- **The verdict under one-to-one names.** -/
theorem verdict_replace (hσ : σ.Injective) (hp : p.SymbolsNamed) (cap : Nat)
    (hcalls : p.joinsCalls interprocedural = true → KeepsCallNames σ)
    (havoids : ∀ g calls, FlowGraph.ofProgram p interprocedural = .ok (g, calls) →
      p.AvoidsDisplaced σ interprocedural g) :
    verdict (p.replace σ) interprocedural cap = .ok .parallelizable ↔
      verdict p interprocedural cap = .ok .parallelizable := by
  rw [verdict_eq_parallelizable_iff, verdict_eq_parallelizable_iff,
    FlowGraph.ofProgram_replace p interprocedural hcalls]
  cases hg : FlowGraph.ofProgram p interprocedural with
  | error e => exact ⟨nofun, nofun⟩
  | ok r =>
    obtain ⟨g, calls⟩ := r
    obtain ⟨hroot, b, hb⟩ := FlowGraph.boundary?_ofProgram hg
    have hnames : ∀ name ∈ g.boundaries.names, name ≠ g.root → KeepsCallNames σ := by
      intro name hname hne
      cases hjoins : p.joinsCalls interprocedural with
      | true => exact hcalls hjoins
      | false =>
        -- A graph without calls has the boundary of the loop body only.
        have hgraph := FlowGraph.isGraphOf_of_joinsCalls hg hjoins
        rw [hgraph.boundaries_eq] at hname
        exact absurd ((List.mem_singleton.1 hname).trans hroot.symm) hne
    have hwrites := checkWrites_replace hσ p g cap hnames
    have harrays : checkWrites p g cap = .ok none →
        (arraysOf (p.replace σ) (g.replace σ) cap = .ok none ↔ arraysOf p g cap = .ok none) :=
      fun h => arraysOf_replace hσ hp hg hcalls (assignsOnly_root h hroot
        (NameMap.mem_names_of_contains (Option.isSome_iff_exists.2 ⟨b, hb⟩)))
          (havoids g calls hg) cap
    constructor
    · rintro ⟨g', calls', heq, hw, ha⟩
      cases heq
      have hw := hwrites.1 hw
      exact ⟨g, calls, rfl, hw, (harrays hw).1 ha⟩
    · rintro ⟨g', calls', heq, hw, ha⟩
      cases heq
      exact ⟨_, _, rfl, hwrites.2 hw, (harrays hw).2 ha⟩

end Verdicts

end Verify

end ParLoop
