import ParLoop.Proofs.Expr.OneToOne
import ParLoop.Proofs.FlowGraph.Operations
import ParLoop.Proofs.Outcome
import ParLoop.Verify.Arrays

/-!
# Accesses to arrays

What it says of two accesses that the check of the arrays succeeds: if their names may denote one
storage and one of them writes, both have the same index that changes with the iteration
(`indexOf_of_checkArrays`).
-/

namespace ParLoop

/-- The same access at another node and with other names. -/
def Access.renameAt (a : Access) (r : Renaming) (node : Nat) : Access :=
  ⟨node, a.expression.rename r, a.isWrite⟩

namespace Verify

variable {g : FlowGraph} {facts : Flow.Solution Descriptor} {storages : Flow.Solution Alias}

theorem accessesOf_rename (r : Renaming) (node node' : Nat) (i : Instr) :
    accessesOf node' (i.rename r) = (accessesOf node i).map (·.renameAt r node') := by
  have hexpressions : (i.rename r).expressions.flatMap Expr.accesses =
      (i.expressions.flatMap Expr.accesses).map (Expr.rename r) := by
    rw [Instr.expressions_rename, List.flatMap_map, List.map_flatMap]
    exact List.flatMap_congr fun e _ => Expr.accesses_rename r e
  simp only [accessesOf, hexpressions, Instr.isSome_writtenArray?_rename, List.zipIdx_map,
    List.map_map]
  rfl

/-- The accesses in a graph are those of its instructions. -/
theorem mem_accesses_iff {a : Access} :
    a ∈ accesses g ↔ ∃ i, g.instr? a.node = some i ∧ a ∈ accessesOf a.node i := by
  simp only [accesses, List.mem_flatMap, Prod.exists, FlowGraph.mem_instrNodes]
  constructor
  · rintro ⟨n, i, hi, ha⟩
    obtain ⟨q, -, rfl⟩ := List.mem_map.1 ha
    exact ⟨i, hi, ha⟩
  · rintro ⟨i, hi, ha⟩
    exact ⟨a.node, i, hi, ha⟩

/-- The accesses of an instruction. -/
theorem mem_accesses {node : Nat} {i : Instr} (hi : (node, i) ∈ g.instrNodes) {e : Expr}
    (he : e ∈ i.expressions.flatMap Expr.accesses) :
    ∃ isWrite, ⟨node, e, isWrite⟩ ∈ accesses g := by
  obtain ⟨k, hk⟩ := List.getElem?_of_mem he
  refine ⟨i.writtenArray?.isSome && k = 0, List.mem_flatMap.2 ⟨(node, i), hi, ?_⟩⟩
  exact List.mem_map.2 ⟨(e, k), List.mem_zipIdx_iff_getElem?.2 hk, rfl⟩

/-- The write of an assignment to an element. -/
theorem write_mem_accesses {node : Nat} {a : String} {is : List Expr} {value : Expr}
    (hi : (node, Instr.assign (.access a is) value) ∈ g.instrNodes) :
    ⟨node, .access a is, true⟩ ∈ accesses g := by
  refine List.mem_flatMap.2 ⟨_, hi, List.mem_map.2 ⟨(.access a is, 0), ?_, rfl⟩⟩
  rw [List.mem_zipIdx_iff_getElem?]
  simp [Instr.expressions, Expr.accesses, Expr.subterms, Expr.accessedArray?]

theorem locate_eq_ok {a : Access} {array : String} {indices : List Expr} {l : Option Located}
    (he : a.expression = .access array indices) (h : locate storages a = .ok l) :
    l = some ⟨a, array, indices, .ofList (Alias.targetsOf (storages.factsAt a.node) array)⟩ := by
  unfold locate at h
  rw [he] at h
  cases indices with
  | nil => cases h
  | cons i is =>
    obtain ⟨ts, hts, h⟩ := Outcome.bind_eq_ok.1 h
    cases h
    unfold Flow.aliasesAt at hts
    split at hts
    · cases hts
    · cases hts
      rfl

theorem mem_foldl_union {located : List Located} {start : OrderedSet Expr} {t : Expr} :
    t ∈ located.foldl (fun s l => s.union l.targets) start ↔
      t ∈ start ∨ ∃ l ∈ located, t ∈ l.targets := by
  induction located generalizing start with
  | nil => simp
  | cons l located ih =>
    rw [List.foldl_cons, ih]
    simp [or_assoc]

/-- The check of a storage succeeds if it is not written, or all accesses have one index. -/
theorem checkTarget_eq_none {target : Expr} {group : List Located} :
    checkTarget g facts target group = .ok none ↔
      ((group.any fun l => l.access.isWrite) = true →
        ∃ indices, (group.mapM fun l => indexOf g facts l.access l.array l.indices) = .ok indices ∧
          ∀ i ∈ indices, indices.head? = some i) := by
  unfold checkTarget
  split
  case isTrue hwrite =>
    simp only [hwrite, true_imp_iff, Outcome.bind_eq_ok]
    refine exists_congr fun indices => and_congr_right fun _ => ?_
    simp only [List.all_eq_true, decide_eq_true_eq]
    split
    case isTrue hall => exact ⟨fun _ => hall, fun _ => rfl⟩
    case isFalse hnot => exact ⟨nofun, fun hall => absurd hall hnot⟩
  case isFalse hwrite => exact ⟨fun _ h => absurd h hwrite, fun _ => rfl⟩

/-- The accesses to a storage that is written have one index in common. -/
theorem indexOf_of_checkTarget {target : Expr} {group : List Located}
    (h : checkTarget g facts target group = .ok none) {l l' : Located} (hl : l ∈ group)
    (hl' : l' ∈ group) (hwrite : l.access.isWrite = true) :
    ∃ i, indexOf g facts l.access l.array l.indices = .ok i ∧
      indexOf g facts l'.access l'.array l'.indices = .ok i := by
  obtain ⟨indices, hindices, hhead⟩ :=
    checkTarget_eq_none.1 h (List.any_eq_true.2 ⟨l, hl, hwrite⟩)
  obtain ⟨i, hi, hok⟩ := Outcome.exists_of_mapM_eq_ok hindices hl
  obtain ⟨i', hi', hok'⟩ := Outcome.exists_of_mapM_eq_ok hindices hl'
  have heq : some i = some i' := by rw [← hhead i hi, hhead i' hi']
  cases heq
  exact ⟨i, hok, hok'⟩

/-- The check of the arrays succeeds if the check of each storage does. -/
theorem checkArrays_eq_none : checkArrays g facts storages = .ok none ↔
    ∃ all, (accesses g).mapM (locate storages) = .ok all ∧
      ∀ target, (∃ l ∈ all.reduceOption, target ∈ l.targets) → checkTarget g facts target
        (all.reduceOption.filter fun l => l.targets.contains target) = .ok none := by
  unfold checkArrays
  rw [Outcome.bind_eq_ok]
  refine exists_congr fun all => and_congr_right fun _ => ?_
  rw [Outcome.findSomeM?_eq_none]
  refine forall_congr' fun target => imp_congr_left ?_
  rw [← OrderedSet.mem_iff, mem_foldl_union]
  simp

/-- **Accesses to a storage that is written have the same varying index.** -/
theorem indexOf_of_checkArrays (h : checkArrays g facts storages = .ok none) {a a' : Access}
    (ha : a ∈ accesses g) (ha' : a' ∈ accesses g) (hwrite : a.isWrite = true)
    {array array' : String} {indices indices' : List Expr}
    (he : a.expression = .access array indices) (he' : a'.expression = .access array' indices')
    {target : Expr} (ht : target ∈ Alias.targetsOf (storages.factsAt a.node) array)
    (ht' : target ∈ Alias.targetsOf (storages.factsAt a'.node) array') :
    ∃ i, indexOf g facts a array indices = .ok i ∧ indexOf g facts a' array' indices' = .ok i := by
  obtain ⟨all, hall, hcheck⟩ := checkArrays_eq_none.1 h
  have hlocated : ∀ {a : Access} {array : String} {indices : List Expr}, a ∈ accesses g →
      a.expression = .access array indices →
      (⟨a, array, indices, .ofList (Alias.targetsOf (storages.factsAt a.node) array)⟩ : Located) ∈
        all.reduceOption := by
    intro a array indices ha he
    obtain ⟨l, hl, hlocate⟩ := Outcome.exists_of_mapM_eq_ok hall ha
    rw [locate_eq_ok he hlocate] at hl
    exact List.mem_filterMap.2 ⟨_, hl, rfl⟩
  have hl := hlocated ha he
  have hl' := hlocated ha' he'
  have hgroup : ∀ l ∈ all.reduceOption, target ∈ l.targets →
      l ∈ all.reduceOption.filter fun l => l.targets.contains target :=
    fun l hl ht => List.mem_filter.2 ⟨hl, OrderedSet.contains_iff.2 ht⟩
  have ht := OrderedSet.mem_ofList.2 ht
  have ht' := OrderedSet.mem_ofList.2 ht'
  exact (indexOf_of_checkTarget (hcheck target ⟨_, hl, ht⟩) (hgroup _ hl ht) (hgroup _ hl' ht')
    hwrite :)

/-- What an index that changes with the iteration is. -/
theorem indexOf_eq_ok {a : Access} {array : String} {indices : List Expr} {i : Index}
    (h : indexOf g facts a array indices = .ok i) :
    ∃ e, indices[i.dimension]? = some e ∧
      Descriptor.isLoopDependent (facts.factsAt a.node) e = true ∧
      i.expression = e.substitute (fun x => some (.var (trace g facts g.size x a.node).1)) ∧
      i.definitions = e.occurrences.map fun x => trace g facts g.size x a.node := by
  unfold indexOf at h
  dsimp only at h
  split at h
  case h_1 e dimension hone =>
    cases h
    have hone : (indices.zipIdx.filter fun t =>
        Descriptor.isLoopDependent (facts.factsAt a.node) t.1) = [(e, dimension)] := hone
    have hmem : (e, dimension) ∈ indices.zipIdx.filter fun t =>
        Descriptor.isLoopDependent (facts.factsAt a.node) t.1 := by
      rw [hone]
      exact List.mem_singleton.2 rfl
    obtain ⟨hzip, hdependent⟩ := List.mem_filter.1 hmem
    exact ⟨e, List.mem_zipIdx_iff_getElem?.1 hzip, hdependent, rfl, rfl⟩
  case h_2 => cases h
  case h_3 => cases h

end Verify

end ParLoop
