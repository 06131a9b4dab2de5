import Mathlib.Logic.Equiv.Basic
import ParLoop.Proofs.AliasGroup.Components
import ParLoop.Proofs.FlowGraph.OneToOne

/-!
# Groups under one-to-one names

The groups of a program with its names replaced one-to-one are the groups of the program, with the
names of their members replaced (`AliasGroup.mem_ofProgram_replace`). The member that stands for the
storage of a group may be another one, since it is the first by name. `Program.storageName` says
which name a storage then goes by. It differs from the new name of a variable only for the names
that are displaced (`Program.storageName_of_not_displaced`).
-/

namespace ParLoop

variable {σ : String → String}

/-! ### Outside names -/

theorem Procedure.declaredNames_rename (σ : String → String) (f : Procedure) :
    (f.rename ⟨σ, σ⟩).declaredNames = f.declaredNames.map σ := by
  rw [declaredNames, declaredNames, List.map_append, rename, List.filterMap_map,
    List.map_filterMap]
  refine congrArg _ (List.filterMap_congr fun i _ => ?_)
  cases i with
  | assign target value => cases target <;> rfl
  | _ => rfl

theorem Procedure.outsideNames_rename (hσ : σ.Injective) (f : Procedure) :
    (f.rename ⟨σ, σ⟩).outsideNames = f.outsideNames.map σ := by
  have hread : (f.rename ⟨σ, σ⟩).body.flatMap
      (fun i => i.expressions.flatMap fun e => e.names.toList) =
        f.body.flatMap fun i => i.expressions.flatMap fun e => (e.names.map σ).toList := by
    simp only [rename, List.flatMap_map, Instr.expressions_rename, Expr.names_rename]
  rw [outsideNames, outsideNames, hread, declaredNames_rename]
  refine OrderedSet.ext fun x => ?_
  simp only [OrderedSet.mem_filter, OrderedSet.mem_ofList, OrderedSet.mem_map, List.mem_flatMap,
    Bool.not_eq_true', ← Bool.not_eq_true, List.contains_iff_mem, ← OrderedSet.mem_iff]
  constructor
  · rintro ⟨⟨i, hi, e, he, y, hy, rfl⟩, hx⟩
    exact ⟨y, ⟨⟨i, hi, e, he, hy⟩, fun h => hx (List.mem_map_of_mem h)⟩, rfl⟩
  · rintro ⟨y, ⟨⟨i, hi, e, he, hy⟩, hnot⟩, rfl⟩
    exact ⟨⟨i, hi, e, he, y, hy, rfl⟩, fun h => hnot ((List.mem_map_of_injective hσ).1 h)⟩

theorem Program.outsideNames_replace (hσ : σ.Injective) (p : Program) :
    (p.replace σ).outsideNames = p.outsideNames.map σ := by
  have hbodies : (p.replace σ).root :: (p.replace σ).procedures.values =
      (p.root :: p.procedures.values).map (Procedure.rename ⟨σ, σ⟩) := by
    simp [replace, root, NameMap.values, NameMap.mapValues, Procedure.rename, Function.comp_def]
  rw [outsideNames, hbodies]
  refine OrderedSet.ext fun x => ?_
  simp only [outsideNames, OrderedSet.mem_ofList, OrderedSet.mem_map, List.mem_flatMap,
    List.mem_map, Procedure.outsideNames_rename hσ, ← OrderedSet.mem_iff, exists_exists_and_eq_and]
  constructor
  · rintro ⟨f, hf, y, hy, rfl⟩
    exact ⟨y, ⟨f, hf, hy⟩, rfl⟩
  · rintro ⟨y, ⟨f, hf, hy⟩, rfl⟩
    exact ⟨f, hf, y, hy, rfl⟩

theorem Program.mem_outsideArrays_replace (hσ : σ.Injective) {p : Program} {s : Symbol} :
    s ∈ (p.replace σ).outsideArrays ↔ ∃ t ∈ p.outsideArrays, t.replace σ = s := by
  have hfind : ∀ x,
      (p.replace σ).symbols.find? (σ x) = (p.symbols.find? x).map (Symbol.replace σ) :=
    NameMap.find?_mapEntries (fun _ _ h => hσ h) _ _
  simp only [mem_outsideArrays, outsideNames_replace hσ, OrderedSet.mem_map]
  constructor
  · rintro ⟨⟨-, ⟨x, hx, rfl⟩, hs⟩, harray⟩
    rw [hfind, Option.map_eq_some_iff] at hs
    obtain ⟨t, ht, rfl⟩ := hs
    exact ⟨t, ⟨⟨x, hx, ht⟩, harray⟩, rfl⟩
  · rintro ⟨t, ⟨⟨x, hx, ht⟩, harray⟩, rfl⟩
    exact ⟨⟨σ x, ⟨x, hx, rfl⟩, by rw [hfind, ht]; rfl⟩, harray⟩

/-- Chains under other names. -/
theorem Linked.replace_iff {symbols symbols' : List Symbol}
    (h : ∀ s, s ∈ symbols' ↔ ∃ t ∈ symbols, t.replace σ = s) {s u : Symbol} :
    Linked symbols' (s.replace σ) u ↔ ∃ t, Linked symbols s t ∧ t.replace σ = u := by
  constructor
  · intro hlinked
    induction hlinked with
    | refl => exact ⟨s, .refl, rfl⟩
    | tail _ hstep ih =>
      obtain ⟨t, hst, rfl⟩ := ih
      obtain ⟨t', ht', rfl⟩ := (h _).1 hstep.1
      exact ⟨t', .tail hst ⟨ht', hstep.2⟩, rfl⟩
  · rintro ⟨t, hst, rfl⟩
    induction hst with
    | refl => exact .refl
    | tail _ hstep ih => exact .tail ih ⟨(h _).2 ⟨_, hstep.1, rfl⟩, hstep.2⟩

/-! ### Groups -/

namespace AliasGroup

variable {p : Program} {G : AliasGroup} {x : String}

/-- The group with the names of its members replaced. -/
def replace (σ : String → String) (G : AliasGroup) : AliasGroup := ⟨G.members.map σ⟩

/-- A group under one-to-one names, given by one of its members. -/
theorem mem_replace_iff (hσ : σ.Injective) {s : Symbol}
    (hG : ∀ x, x ∈ G.members ↔ ∃ t, Linked p.outsideArrays s t ∧ t.name = x) :
    x ∈ (G.replace σ).members ↔
      ∃ t, Linked (p.replace σ).outsideArrays (s.replace σ) t ∧ t.name = x := by
  simp only [replace, OrderedSet.mem_map, hG,
    Linked.replace_iff fun _ => Program.mem_outsideArrays_replace hσ]
  constructor
  · rintro ⟨-, ⟨t, ht, rfl⟩, rfl⟩
    exact ⟨t.replace σ, ⟨t, ht, rfl⟩, rfl⟩
  · rintro ⟨-, ⟨t, ht, rfl⟩, rfl⟩
    exact ⟨t.name, ⟨t, ht, rfl⟩, rfl⟩

/-- **The groups under one-to-one names.** -/
theorem mem_ofProgram_replace (hσ : σ.Injective) :
    G ∈ ofProgram (p.replace σ) ↔ ∃ H ∈ ofProgram p, H.replace σ = G := by
  constructor
  · intro hG
    obtain ⟨s', hs', hmembers'⟩ := mem_ofProgram.1 hG
    obtain ⟨s, hs, rfl⟩ := (Program.mem_outsideArrays_replace hσ).1 hs'
    obtain ⟨H, hH, hmembers⟩ := exists_group hs
    exact ⟨H, hH, eq_of_members fun x => (mem_replace_iff hσ hmembers).trans (hmembers' x).symm⟩
  · rintro ⟨H, hH, rfl⟩
    obtain ⟨s, hs, hmembers⟩ := mem_ofProgram.1 hH
    exact mem_ofProgram.2 ⟨s.replace σ, (Program.mem_outsideArrays_replace hσ).2 ⟨s, hs, rfl⟩,
      fun x => mem_replace_iff hσ hmembers⟩

theorem first_replace_mem (hσ : σ.Injective) (hG : G ∈ ofProgram p) :
    (G.replace σ).first ∈ G.members.map σ :=
  first_mem ((mem_ofProgram_replace hσ).2 ⟨G, hG, rfl⟩)

end AliasGroup

/-! ### Names of storages -/

namespace Program

open AliasGroup

variable {p : Program} {G : AliasGroup} {z : String}

/-- A name stands for the storage of a group under the old names or under the new ones, but not
under both. -/
def Displaced (p : Program) (σ : String → String) (z : String) : Prop :=
  ∃ G ∈ ofProgram p, σ G.first ≠ (G.replace σ).first ∧
    (z = G.first ∨ σ z = (G.replace σ).first)

instance (p : Program) (σ : String → String) (z : String) : Decidable (p.Displaced σ z) :=
  inferInstanceAs (Decidable (∃ G ∈ ofProgram p, σ G.first ≠ (G.replace σ).first ∧
    (z = G.first ∨ σ z = (G.replace σ).first)))

/-- The new name of a storage: within a group, the names that stand for it are exchanged. -/
def storageName (p : Program) (σ : String → String) (z : String) : String :=
  match (ofProgram p).find? fun G => G.members.contains z with
  | some G => Equiv.swap (σ G.first) (G.replace σ).first (σ z)
  | none => σ z

theorem storageName_of_mem (hp : p.SymbolsNamed) (hG : G ∈ ofProgram p) (hz : z ∈ G.members) :
    p.storageName σ z = Equiv.swap (σ G.first) (G.replace σ).first (σ z) := by
  unfold storageName
  cases hfind : (ofProgram p).find? fun G => G.members.contains z with
  | none =>
    have hnot := List.find?_eq_none.1 hfind G hG
    exact absurd (OrderedSet.contains_iff.2 hz) (by simpa using hnot)
  | some H =>
    have hzH : z ∈ H.members := OrderedSet.contains_iff.1 (by simpa using List.find?_some hfind)
    cases eq_of_mem_members hp hG (List.mem_of_find?_eq_some hfind) hz hzH
    rfl

theorem storageName_of_not_mem (h : ∀ G ∈ ofProgram p, z ∉ G.members) :
    p.storageName σ z = σ z := by
  unfold storageName
  cases hfind : (ofProgram p).find? fun G => G.members.contains z with
  | none => rfl
  | some H =>
    have hzH : z ∈ H.members := OrderedSet.contains_iff.1 (by simpa using List.find?_some hfind)
    exact absurd hzH (h H (List.mem_of_find?_eq_some hfind))

/-- A storage gets the new name of a member of its group. -/
theorem exists_storageName (hσ : σ.Injective) (hp : p.SymbolsNamed) (z : String) :
    ∃ w, p.storageName σ z = σ w ∧ ∀ G ∈ ofProgram p, w ∈ G.members ↔ z ∈ G.members := by
  by_cases hz : ∃ G ∈ ofProgram p, z ∈ G.members
  · obtain ⟨G, hG, hz⟩ := hz
    obtain ⟨w, hw, hname⟩ : ∃ w ∈ G.members, p.storageName σ z = σ w := by
      rw [storageName_of_mem hp hG hz, Equiv.swap_apply_def]
      split
      · obtain ⟨w, hw, heq⟩ := OrderedSet.mem_map.1 (first_replace_mem hσ hG)
        exact ⟨w, hw, heq.symm⟩
      · split
        · exact ⟨G.first, first_mem hG, rfl⟩
        · exact ⟨z, hz, rfl⟩
    refine ⟨w, hname, fun H hH => ⟨fun h => ?_, fun h => ?_⟩⟩
    · exact eq_of_mem_members hp hG hH hw h ▸ hz
    · exact eq_of_mem_members hp hG hH hz h ▸ hw
  · exact ⟨z, storageName_of_not_mem fun G hG hmem => hz ⟨G, hG, hmem⟩, fun _ _ => Iff.rfl⟩

theorem storageName_injective (hσ : σ.Injective) (hp : p.SymbolsNamed) :
    (p.storageName σ).Injective := by
  intro z z' heq
  obtain ⟨w, hname, hw⟩ := exists_storageName hσ hp z
  obtain ⟨w', hname', hw'⟩ := exists_storageName hσ hp z'
  -- Storages with one name are in one group, or both in none.
  cases hσ (hname.symm.trans (heq.trans hname'))
  by_cases hz : ∃ G ∈ ofProgram p, z ∈ G.members
  · obtain ⟨G, hG, hz⟩ := hz
    have hz' : z' ∈ G.members := (hw' G hG).1 ((hw G hG).2 hz)
    rw [storageName_of_mem hp hG hz, storageName_of_mem hp hG hz'] at heq
    exact hσ ((Equiv.swap _ _).injective heq)
  · have hz' : ∀ G ∈ ofProgram p, z' ∉ G.members :=
      fun G hG hmem => hz ⟨G, hG, (hw G hG).1 ((hw' G hG).2 hmem)⟩
    rw [storageName_of_not_mem fun G hG hmem => hz ⟨G, hG, hmem⟩, storageName_of_not_mem hz'] at heq
    exact hσ heq

theorem storageName_first (hp : p.SymbolsNamed) (hG : G ∈ ofProgram p) :
    p.storageName σ G.first = (G.replace σ).first := by
  rw [storageName_of_mem hp hG (first_mem hG), Equiv.swap_apply_left]

/-- **Only displaced names get another name as storages than as variables.** -/
theorem storageName_of_not_displaced (hp : p.SymbolsNamed) (hσ : σ.Injective)
    (h : ¬p.Displaced σ z) : p.storageName σ z = σ z := by
  by_cases hz : ∃ G ∈ ofProgram p, z ∈ G.members
  · obtain ⟨G, hG, hz⟩ := hz
    rw [storageName_of_mem hp hG hz]
    by_cases hsame : σ G.first = (G.replace σ).first
    · rw [hsame, Equiv.swap_self]
      rfl
    · refine Equiv.swap_apply_of_ne_of_ne (fun heq => ?_) fun heq => ?_
      · exact h ⟨G, hG, hsame, Or.inl (hσ heq)⟩
      · exact h ⟨G, hG, hsame, Or.inr heq⟩
  · exact storageName_of_not_mem fun G hG hmem => hz ⟨G, hG, hmem⟩

theorem mem_of_displaced (hσ : σ.Injective) (h : p.Displaced σ z) :
    ∃ G ∈ ofProgram p, z ∈ G.members := by
  obtain ⟨G, hG, -, rfl | hz⟩ := h
  · exact ⟨G, hG, first_mem hG⟩
  · refine ⟨G, hG, (OrderedSet.mem_map_iff hσ).1 ?_⟩
    rw [hz]
    exact first_replace_mem hσ hG

end Program

end ParLoop
