import Mathlib.Logic.Relation
import ParLoop.AliasGroup
import ParLoop.Proofs.NameMap

/-!
# Groups of arrays as components

Two arrays are in one group exactly if a chain leads from one to the other, in which each array may
be the same as the next (`AliasGroup.mem_ofProgram`). No group is empty, and two groups have no
member in common (`AliasGroup.eq_of_mem_members`).
-/

namespace ParLoop

theorem Symbol.mayAlias_comm (s t : Symbol) : s.mayAlias t = t.mayAlias s := by
  simp only [mayAlias, ne_eq, eq_comm (a := s.rank), eq_comm (a := s.element),
    Bool.or_comm s.element.isValue, Bool.and_comm s.isExclusive,
    Bool.or_comm (decide (s.visibility = _))]

/-! ### Chains -/

/-- A chain of symbols leads from one to another; each may be the same array as the next. -/
def Linked (symbols : List Symbol) : Symbol → Symbol → Prop :=
  Relation.ReflTransGen fun s t => t ∈ symbols ∧ s.mayAlias t = true

namespace Linked

variable {symbols symbols' : List Symbol} {s t u : Symbol}

theorem mono (h : Linked symbols s t) (hsub : ∀ s ∈ symbols, s ∈ symbols') :
    Linked symbols' s t :=
  Relation.ReflTransGen.mono (fun _ t hst => ⟨hsub t hst.1, hst.2⟩) _ _ h

theorem mem (h : Linked symbols s t) (hs : s ∈ symbols) : t ∈ symbols := by
  induction h with
  | refl => exact hs
  | tail _ hstep _ => exact hstep.1

theorem symm (h : Linked symbols s t) (hs : s ∈ symbols) : Linked symbols t s := by
  induction h with
  | refl => exact .refl
  | tail hfirst hstep ih =>
    exact .head ⟨mem hfirst hs, (Symbol.mayAlias_comm _ _).trans hstep.2⟩ ih

theorem trans (h : Linked symbols s t) (h' : Linked symbols t u) : Linked symbols s u :=
  Relation.ReflTransGen.trans h h'

end Linked

/-! ### Components -/

/-- The groups are the components of some symbols. -/
structure Components (symbols : List Symbol) (groups : List (List Symbol)) : Prop where
  covers : ∀ s, s ∈ symbols ↔ ∃ g ∈ groups, s ∈ g
  linked : ∀ g ∈ groups, ∀ s ∈ g, ∀ t ∈ g, Linked symbols s t
  closed : ∀ g ∈ groups, ∀ s ∈ g, ∀ t ∈ symbols, s.mayAlias t = true → t ∈ g
  nonempty : ∀ g ∈ groups, g ≠ []

namespace AliasGroup

variable {groups : List (List Symbol)} {s t : Symbol}

/-- The group of a symbol that joins groups: it brings them together. -/
def joined (groups : List (List Symbol)) (s : Symbol) : List Symbol :=
  (groups.filter fun g => g.any s.mayAlias).flatten ++ [s]

theorem mem_joined : t ∈ joined groups s ↔
    (∃ g ∈ groups, (∃ u ∈ g, s.mayAlias u = true) ∧ t ∈ g) ∨ t = s := by
  simp only [joined, List.mem_append, List.mem_flatten, List.mem_filter, List.any_eq_true,
    List.mem_singleton, and_assoc]

/-- The groups that a symbol does not join stay. -/
theorem mem_join {g : List Symbol} : g ∈ join groups s ↔
    (g ∈ groups ∧ g.any s.mayAlias = false) ∨ g = joined groups s := by
  simp [join, joined, List.partition_eq_filter_filter]

end AliasGroup

namespace Components

open AliasGroup

variable {symbols : List Symbol} {groups : List (List Symbol)} {s t u : Symbol}

theorem covers_join (h : Components symbols groups) (s t : Symbol) :
    t ∈ symbols ++ [s] ↔ ∃ g ∈ AliasGroup.join groups s, t ∈ g := by
  rw [List.mem_append, List.mem_singleton, h.covers t]
  constructor
  · rintro (⟨g, hg, ht⟩ | rfl)
    · cases hany : g.any s.mayAlias with
      | true =>
        exact ⟨_, mem_join.2 (Or.inr rfl),
          mem_joined.2 (Or.inl ⟨g, hg, List.any_eq_true.1 hany, ht⟩)⟩
      | false => exact ⟨g, mem_join.2 (Or.inl ⟨hg, hany⟩), ht⟩
    · exact ⟨_, mem_join.2 (Or.inr rfl), mem_joined.2 (Or.inr rfl)⟩
  · rintro ⟨g, hg, ht⟩
    rcases mem_join.1 hg with ⟨hg, -⟩ | rfl
    · exact Or.inl ⟨g, hg, ht⟩
    · exact (mem_joined.1 ht).imp_left fun ⟨g, hg, _, ht⟩ => ⟨g, hg, ht⟩

/-- Chains lead from every member of the new group to the symbol, and back. -/
theorem linked_joined (h : Components symbols groups) (ht : t ∈ joined groups s) :
    Linked (symbols ++ [s]) t s ∧ Linked (symbols ++ [s]) s t := by
  have hsub : ∀ t ∈ symbols, t ∈ symbols ++ [s] := fun t ht => List.mem_append_left _ ht
  rcases mem_joined.1 ht with ⟨g, hg, ⟨u, hu, hsu⟩, ht⟩ | rfl
  · have hmem : u ∈ symbols := (h.covers u).2 ⟨g, hg, hu⟩
    have hus : u.mayAlias s = true := (Symbol.mayAlias_comm u s).trans hsu
    exact ⟨.tail ((h.linked g hg t ht u hu).mono hsub) ⟨by simp, hus⟩,
      .head ⟨hsub u hmem, hsu⟩ ((h.linked g hg u hu t ht).mono hsub)⟩
  · exact ⟨.refl, .refl⟩

/-- The new group has all that may be the same as a member. -/
theorem closed_joined (h : Components symbols groups) (ht : t ∈ joined groups s)
    (hu : u ∈ symbols) (halias : t.mayAlias u = true) : u ∈ joined groups s := by
  refine mem_joined.2 (Or.inl ?_)
  rcases mem_joined.1 ht with ⟨g, hg, hs, ht⟩ | rfl
  · exact ⟨g, hg, hs, h.closed g hg t ht u hu halias⟩
  · obtain ⟨g, hg, hmem⟩ := (h.covers u).1 hu
    exact ⟨g, hg, ⟨u, hmem, halias⟩, hmem⟩

/-- A symbol joins the groups of the symbols that it may be the same as. -/
theorem join (h : Components symbols groups) (s : Symbol) :
    Components (symbols ++ [s]) (join groups s) where
  covers := h.covers_join s
  linked := by
    intro g hg t ht u hu
    rcases mem_join.1 hg with ⟨hg, -⟩ | rfl
    · exact (h.linked g hg t ht u hu).mono fun v hv => List.mem_append_left _ hv
    · exact (h.linked_joined ht).1.trans (h.linked_joined hu).2
  closed := by
    intro g hg t ht u hu halias
    rcases mem_join.1 hg with ⟨hg, hany⟩ | rfl <;>
      rcases List.mem_append.1 hu with hold | hnew
    · exact h.closed g hg t ht u hold halias
    · cases List.mem_singleton.1 hnew
      have hst : s.mayAlias t = true := (Symbol.mayAlias_comm s t).trans halias
      exact absurd hst (List.any_eq_false.1 hany t ht)
    · exact h.closed_joined ht hold halias
    · exact mem_joined.2 (Or.inr (List.mem_singleton.1 hnew))
  nonempty := by
    intro g hg
    rcases mem_join.1 hg with ⟨hg, -⟩ | rfl
    · exact h.nonempty g hg
    · simp [joined]

theorem foldl_join (h : Components symbols groups) (rest : List Symbol) :
    Components (symbols ++ rest) (rest.foldl AliasGroup.join groups) := by
  induction rest generalizing symbols groups with
  | nil => rwa [List.append_nil]
  | cons s rest ih =>
    have hrest := ih (h.join s)
    rwa [List.append_assoc] at hrest

/-- **Symbols are put into their components.** -/
theorem of_foldl (symbols : List Symbol) :
    Components symbols (symbols.foldl AliasGroup.join []) := by
  have hnil : Components [] [] := ⟨by simp, by simp, by simp, by simp⟩
  exact hnil.foldl_join symbols

/-- The members of a group are those to which chains lead from one of them. -/
theorem mem_iff (h : Components symbols groups) {g : List Symbol} (hg : g ∈ groups) {s t : Symbol}
    (hs : s ∈ g) : t ∈ g ↔ Linked symbols s t := by
  refine ⟨h.linked g hg s hs t, fun hst => ?_⟩
  induction hst with
  | refl => exact hs
  | tail _ hstep ih => exact h.closed g hg _ ih _ hstep.1 hstep.2

end Components

/-! ### Groups of a program -/

theorem Procedure.mem_declaredNames {f : Procedure} {x : String} :
    x ∈ f.declaredNames ↔ x ∈ f.parameters ∨ .declare x ∈ f.body := by
  rw [declaredNames, List.mem_append, List.mem_filterMap]
  refine or_congr_right ⟨?_, fun h => ⟨_, h, rfl⟩⟩
  rintro ⟨i, hi, hx⟩
  cases i <;> cases hx
  exact hi

theorem Procedure.mem_outsideNames {f : Procedure} {x : String} :
    x ∈ f.outsideNames ↔ (∃ i ∈ f.body, ∃ e ∈ i.expressions, x ∈ e.names) ∧
      x ∉ f.parameters ∧ .declare x ∉ f.body := by
  rw [outsideNames, OrderedSet.mem_filter, OrderedSet.mem_ofList, Bool.not_eq_true',
    ← Bool.not_eq_true, List.contains_iff_mem, mem_declaredNames, not_or]
  simp only [List.mem_flatMap, OrderedSet.mem_iff]

/-- The names that the bodies of a program read and declare nowhere. -/
def Program.outsideNames (p : Program) : OrderedSet String :=
  .ofList ((p.root :: p.procedures.values).flatMap fun f => f.outsideNames.toList)

/-- Every symbol stands under its own name. -/
def Program.SymbolsNamed (p : Program) : Prop :=
  ∀ x s, p.symbols.find? x = some s → s.name = x

theorem Program.mem_outsideArrays {p : Program} {s : Symbol} : s ∈ p.outsideArrays ↔
    (∃ x ∈ p.outsideNames, p.symbols.find? x = some s) ∧ s.isArray = true := by
  rw [outsideArrays, List.mem_filter, List.mem_filterMap]
  rfl

namespace AliasGroup

variable {p : Program} {G H : AliasGroup} {x : String}

theorem eq_of_members (h : ∀ x, x ∈ G.members ↔ x ∈ H.members) : G = H := by
  obtain ⟨members⟩ := G
  obtain ⟨members'⟩ := H
  exact congrArg mk (OrderedSet.ext h)

theorem mem_ofProgram_iff_foldl : G ∈ ofProgram p ↔
    ∃ g ∈ p.outsideArrays.foldl join [], G = ⟨.ofList (g.map (·.name))⟩ := by
  rw [ofProgram, List.mem_mergeSort, List.mem_map]
  exact exists_congr fun g => and_congr_right fun _ => eq_comm

/-- The names of a component. -/
theorem mem_ofList_component {g : List Symbol} (hg : g ∈ p.outsideArrays.foldl join [])
    {s : Symbol} (hs : s ∈ g) :
    x ∈ OrderedSet.ofList (g.map (·.name)) ↔ ∃ t, Linked p.outsideArrays s t ∧ t.name = x := by
  simp only [OrderedSet.mem_ofList, List.mem_map, (Components.of_foldl _).mem_iff hg hs]

/-- Every outside array is in a group. -/
theorem exists_group {s : Symbol} (hs : s ∈ p.outsideArrays) : ∃ G ∈ ofProgram p,
    ∀ x, x ∈ G.members ↔ ∃ t, Linked p.outsideArrays s t ∧ t.name = x := by
  obtain ⟨g, hg, hs⟩ := ((Components.of_foldl _).covers s).1 hs
  exact ⟨_, mem_ofProgram_iff_foldl.2 ⟨g, hg, rfl⟩, fun x => mem_ofList_component hg hs⟩

/-- **The groups of a program are the components of its outside arrays.** -/
theorem mem_ofProgram : G ∈ ofProgram p ↔ ∃ s ∈ p.outsideArrays,
    ∀ x, x ∈ G.members ↔ ∃ t, Linked p.outsideArrays s t ∧ t.name = x := by
  constructor
  · intro hG
    obtain ⟨g, hg, rfl⟩ := mem_ofProgram_iff_foldl.1 hG
    have h := Components.of_foldl p.outsideArrays
    obtain ⟨s, hs⟩ := List.exists_mem_of_ne_nil g (h.nonempty g hg)
    exact ⟨s, (h.covers s).2 ⟨g, hg, hs⟩, fun x => mem_ofList_component hg hs⟩
  · rintro ⟨s, hs, hmembers⟩
    obtain ⟨H, hH, hmembers'⟩ := exists_group hs
    rwa [eq_of_members fun x => (hmembers x).trans (hmembers' x).symm]

/-- The member that stands for the storage of a group. -/
def first (G : AliasGroup) : String := G.members.toList.headD ""

theorem first_mem (hG : G ∈ ofProgram p) : G.first ∈ G.members := by
  obtain ⟨s, -, hmembers⟩ := mem_ofProgram.1 hG
  have hs : s.name ∈ G.members := (hmembers s.name).2 ⟨s, .refl, rfl⟩
  rw [OrderedSet.mem_iff] at hs ⊢
  unfold first
  cases hlist : G.members.toList with
  | nil =>
    rw [hlist] at hs
    cases hs
  | cons y ys => exact List.mem_cons_self

/-- A symbol is known by its name. -/
theorem eq_of_name_eq (hp : p.SymbolsNamed) {s t : Symbol} (hs : s ∈ p.outsideArrays)
    (ht : t ∈ p.outsideArrays) (heq : s.name = t.name) : s = t := by
  obtain ⟨⟨x, -, hx⟩, -⟩ := Program.mem_outsideArrays.1 hs
  obtain ⟨⟨y, -, hy⟩, -⟩ := Program.mem_outsideArrays.1 ht
  rw [← hp x s hx, heq, hp y t hy, hy] at hx
  exact (Option.some.inj hx).symm

/-- **No two groups have a member in common.** -/
theorem eq_of_mem_members (hp : p.SymbolsNamed) (hG : G ∈ ofProgram p) (hH : H ∈ ofProgram p)
    (hx : x ∈ G.members) (hx' : x ∈ H.members) : G = H := by
  obtain ⟨s, hs, hmembers⟩ := mem_ofProgram.1 hG
  obtain ⟨s', hs', hmembers'⟩ := mem_ofProgram.1 hH
  obtain ⟨t, hst, rfl⟩ := (hmembers x).1 hx
  obtain ⟨t', hst', heq⟩ := (hmembers' t.name).1 hx'
  cases eq_of_name_eq hp (hst'.mem hs') (hst.mem hs) heq
  have hlink : ∀ u, Linked p.outsideArrays s u ↔ Linked p.outsideArrays s' u := fun u =>
    ⟨fun hu => hst'.trans ((hst.symm hs).trans hu), fun hu => hst.trans ((hst'.symm hs').trans hu)⟩
  refine eq_of_members fun y => ?_
  rw [hmembers, hmembers']
  exact exists_congr fun u => and_congr_left fun _ => hlink u

theorem mem_seeds {groups : List AliasGroup} {e : Expr} :
    ⟨x, e⟩ ∈ seeds groups ↔ ∃ G ∈ groups, x ∈ G.members ∧ e = G.target := by
  simp only [seeds, OrderedSet.mem_ofList, List.mem_flatMap, List.mem_map, Alias.mk.injEq]
  constructor
  · rintro ⟨G, hG, y, hy, rfl, rfl⟩
    exact ⟨G, hG, hy, rfl⟩
  · rintro ⟨G, hG, hx, rfl⟩
    exact ⟨G, hG, x, hx, rfl, rfl⟩

end AliasGroup

end ParLoop
