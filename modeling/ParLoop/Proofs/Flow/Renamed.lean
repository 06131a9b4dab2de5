import ParLoop.Proofs.Flow.Stable
import ParLoop.Proofs.FlowGraph.Rename
import ParLoop.Proofs.OrderedSet

/-!
# Flow problems with other names

Where a graph has other names, a flow problem has other facts. If merging and the transfer functions
commute with the change of facts (`Analysis.Renames`), the two solvers make the same visits, and the
facts found are the facts found before with other names (`Analysis.Renames.solve_eq`).

The transfer functions need to commute only for facts that a run comes to: a property that is kept
along the flows may be used.
-/

namespace ParLoop.Flow

open Std

variable {F F' : Type} [Ord F] [Ord F'] [TransOrd F']

/-- A flow problem on a graph with other names is a flow problem on the graph, with other facts, as
far as the facts at the nodes have a property. -/
structure Analysis.Renames (a : Analysis F) (a' : Analysis F') (g : FlowGraph)
    (r : String → Renaming) (φ : F → F') (P : Nat → OrderedSet F → Prop) : Prop where
  injective : φ.Injective
  name_eq : a'.name = a.name
  direction_eq : a'.direction = a.direction
  seed_eq : a'.seed = a.seed
  extremal_eq : a'.extremal (g.rename r) = (a.extremal g).map φ
  merge_eq : ∀ x y, a'.merge (x.map φ) (y.map φ) = (a.merge x y).map φ
  leaving_eq : ∀ node x, P node x →
    a'.leaving (g.rename r) node (x.map φ) = (a.leaving g node x).map φ

/-- The facts of the nodes with other names. -/
def mapInputs (φ : F → F') (inputs : Array (Option (OrderedSet F))) :
    Array (Option (OrderedSet F')) := inputs.map (Option.map (OrderedSet.map φ))

theorem getElem?_mapInputs (φ : F → F') (inputs : Array (Option (OrderedSet F))) (node : Nat) :
    (mapInputs φ inputs)[node]?.join = inputs[node]?.join.map (OrderedSet.map φ) := by
  rw [mapInputs, Array.getElem?_map]
  cases inputs[node]? <;> rfl

/-- The state of a solver with other facts. -/
def Progress.map (φ : F → F') (s : Progress F) : Progress F' :=
  ⟨mapInputs φ s.inputs, s.worklist, s.visits⟩

/-- A solution with other facts. -/
def Solution.map (φ : F → F') (s : Solution F) : Solution F' :=
  ⟨mapInputs φ s.inputs, mapInputs φ s.outputs, s.visits⟩

theorem Solution.input?_map (φ : F → F') (s : Solution F) (node : Nat) :
    (s.map φ).input? node = (s.input? node).map (OrderedSet.map φ) :=
  getElem?_mapInputs φ s.inputs node

theorem Solution.factsAt_map (φ : F → F') (s : Solution F) (node : Nat) :
    (s.map φ).factsAt node = (s.factsAt node).map φ := by
  rw [factsAt, factsAt, input?_map]
  cases s.input? node <;> rfl

/-- Where the transfer functions commute for all facts, nothing has to be kept. -/
theorem Analysis.keeps_true (a : Analysis F) (g : FlowGraph) : a.Keeps g fun _ _ => True :=
  ⟨trivial, fun _ _ _ _ => trivial, fun _ _ _ _ _ => trivial⟩

namespace Analysis.Renames

variable {a : Analysis F} {a' : Analysis F'} {g : FlowGraph} {r : String → Renaming} {φ : F → F'}
  {P : Nat → OrderedSet F → Prop}

theorem init_eq (h : a.Renames a' g r φ P) : a'.init (g.rename r) = (a.init g).map φ := by
  simp only [Analysis.init, Progress.map, mapInputs, Array.map_setIfInBounds, Array.map_replicate,
    Option.map_some, Option.map_none, FlowGraph.size_rename, h.direction_eq, h.seed_eq,
    h.extremal_eq]
  cases a.direction <;> cases a.seed <;> simp only [Worklist.init, FlowGraph.size_rename] <;> rfl

variable [TransOrd F] [LawfulEqOrd F] [LawfulEqOrd F'] [DecidableEq F] [DecidableEq F']

theorem arrive_eq (h : a.Renames a' g r φ P) (stored : Option (OrderedSet F))
    (incoming : OrderedSet F) :
    a'.arrive (stored.map (OrderedSet.map φ)) (incoming.map φ) =
      (a.arrive stored incoming).map (OrderedSet.map φ) := by
  cases stored with
  | none => rfl
  | some stored =>
    simp only [arrive, Option.map_some, h.merge_eq]
    by_cases heq : a.merge stored incoming = stored
    · rw [if_pos heq, if_pos (congrArg _ heq)]
      rfl
    · rw [if_neg heq, if_neg fun himage => heq (OrderedSet.map_injective h.injective himage)]
      rfl

/-- One visit. -/
theorem visit_eq (h : a.Renames a' g r φ P) {s : Progress F} {e : Edge} (rest : Worklist)
    (hs : ∀ x, s.input? e.source = some x → P e.source x) :
    a'.visit (g.rename r) (s.map φ) e rest = (a.visit g s e rest).map φ := by
  unfold visit
  simp only [Progress.map, getElem?_mapInputs]
  cases hx : s.inputs[e.source]?.join with
  | none => rfl
  | some x =>
    simp only [Option.map_some, h.leaving_eq _ x (hs x hx), h.arrive_eq]
    cases a.arrive s.inputs[e.target]?.join (a.leaving g e.source x) with
    | none => rfl
    | some z =>
      simp only [Option.map_some, mapInputs, Array.map_setIfInBounds, h.direction_eq, h.seed_eq]
      rfl

/-- A whole run. -/
theorem run_eq (h : a.Renames a' g r φ P) (hg : g.Coherent) (hP : a.Keeps g P) (allowed : Nat)
    {s : Progress F}
    (hs : s.Satisfies a g fun input? => ∀ node x, input? node = some x → P node x) :
    a'.run (g.rename r) allowed (s.map φ) = (a.run g allowed s).map (Progress.map φ) := by
  have hnext : (s.map φ).worklist.next (a'.direction.flowsFrom (g.rename r)) =
      s.worklist.next (a.direction.flowsFrom g) := by
    rw [h.direction_eq]
    rfl
  induction allowed generalizing s with
  | zero =>
    unfold run
    rw [hnext]
    cases s.worklist.next (a.direction.flowsFrom g) <;> rfl
  | succ allowed ih =>
    unfold run
    rw [hnext]
    cases hone : s.worklist.next (a.direction.flowsFrom g) with
    | none => rfl
    | some next =>
      obtain ⟨e, rest⟩ := next
      dsimp only
      rw [h.visit_eq rest fun x hx => hs.holds _ _ hx]
      refine ih (visit_satisfies hg hP.holds_arrive hs hone) ?_
      rw [h.direction_eq]
      rfl

/-- **With other names the same facts are found, with other names.** -/
theorem solve_eq (h : a.Renames a' g r φ P) (hg : g.Coherent) (hP : a.Keeps g P) (cap : Nat) :
    a'.solve (g.rename r) cap = (a.solve g cap).map (Solution.map φ) := by
  have hinit : (a.init g).Satisfies a g fun input? => ∀ node x, input? node = some x → P node x :=
    init_satisfies hg hP.holds_init
  unfold solve
  rw [h.init_eq, h.run_eq hg hP cap hinit]
  cases hrun : a.run g cap (a.init g) with
  | none =>
    simp only [Option.map_none, h.name_eq]
    rfl
  | some t =>
    obtain ⟨hend, -⟩ := run_induct (fun s e rest hs => visit_satisfies hg hP.holds_arrive hs)
      hinit hrun
    have houtputs : (mapInputs φ t.inputs).mapIdx
        (fun node facts => facts.map (a'.leaving (g.rename r) node)) =
          mapInputs φ (t.inputs.mapIdx fun node facts => facts.map (a.leaving g node)) := by
      refine Array.ext_getElem? fun node => ?_
      simp only [mapInputs, Array.getElem?_mapIdx, Array.getElem?_map]
      cases hnode : t.inputs[node]? with
      | none => rfl
      | some facts =>
        cases facts with
        | none => rfl
        | some x =>
          have hx : t.input? node = some x := by rw [Progress.input?, hnode]; rfl
          simp only [Option.map_some, h.leaving_eq node x (hend.holds node x hx)]
    show Except.ok _ = Except.ok _
    rw [Solution.map, ← houtputs]
    rfl

end Analysis.Renames

end ParLoop.Flow
