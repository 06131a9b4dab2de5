import ParLoop.Proofs.AliasGroup.Components
import ParLoop.Proofs.OrderedSet

/-!
# Groups of arrays as a partition

The groups of a program part the outside arrays that its bodies use: every array is in one group,
and two are in one group exactly if a chain of arrays that may be the same leads from one to the
other. The groups are listed by their storages, each the first member of its group, and an array is
known at first to denote the storage of its group and no other (`ofProgram_partitions`).
-/

namespace ParLoop

open Std

/-- A body of a program uses an array from outside: it reads or indexes the name and declares it
nowhere. -/
structure Program.UsesArray (p : Program) (s : Symbol) : Prop where
  symbol : p.symbols.find? s.name = some s
  isArray : s.isArray = true
  body : ∃ f ∈ p.root :: p.procedures.values,
    (∃ i ∈ f.body, ∃ e ∈ i.expressions, s.name ∈ e.names) ∧
      s.name ∉ f.parameters ∧ .declare s.name ∉ f.body

theorem Program.mem_outsideArrays_iff {p : Program} (hp : p.SymbolsNamed) {s : Symbol} :
    s ∈ p.outsideArrays ↔ p.UsesArray s := by
  have hname : ∀ x, x ∈ p.outsideNames ↔ ∃ f ∈ p.root :: p.procedures.values,
      (∃ i ∈ f.body, ∃ e ∈ i.expressions, x ∈ e.names) ∧ x ∉ f.parameters ∧
        .declare x ∉ f.body := by
    intro x
    simp only [outsideNames, OrderedSet.mem_ofList, List.mem_flatMap, ← OrderedSet.mem_iff,
      Procedure.mem_outsideNames]
  rw [mem_outsideArrays]
  constructor
  · rintro ⟨⟨x, hx, hs⟩, harray⟩
    obtain rfl := hp x s hs
    exact ⟨hs, harray, (hname s.name).1 hx⟩
  · rintro ⟨hs, harray, hbody⟩
    exact ⟨⟨s.name, (hname s.name).2 hbody, hs⟩, harray⟩

namespace AliasGroup

variable {p : Program} {G H : AliasGroup} {groups : List (List Symbol)} {symbols : List Symbol}

/-! ### Groups apart

`Components` says which groups there are. That none is listed twice is a matter of the order in
which the symbols come: a symbol joins groups once. -/

/-- A new symbol keeps the groups apart. -/
theorem pairwise_join (hc : Components symbols groups) {s : Symbol} (hs : s ∉ symbols)
    (h : groups.Pairwise fun g g' => ∀ t ∈ g, t ∉ g') :
    (join groups s).Pairwise fun g g' => ∀ t ∈ g, t ∉ g' := by
  have hjoin : join groups s =
      (groups.filter fun g => !g.any s.mayAlias) ++ [joined groups s] := by
    simp [join, joined, List.partition_eq_filter_filter, Function.comp_def]
  rw [hjoin, List.pairwise_append]
  refine ⟨h.filter _, List.pairwise_singleton _ _, fun g hg g' hg' t ht ht' => ?_⟩
  obtain ⟨hmem, hany⟩ := List.mem_filter.1 hg
  cases List.mem_singleton.1 hg'
  rcases mem_joined.1 ht' with ⟨k, hk, ⟨u, hu, hsu⟩, htk⟩ | rfl
  · -- A member of two groups leads from one to the other, so both have the alias of the symbol.
    have hu : u ∈ g := (hc.mem_iff hmem ht).2 ((hc.mem_iff hk htk).1 hu)
    rw [List.any_eq_true.2 ⟨u, hu, hsu⟩] at hany
    cases hany
  · exact hs ((hc.covers t).2 ⟨g, hmem, ht⟩)

theorem pairwise_foldl_join {rest : List Symbol} (hc : Components symbols groups)
    (h : groups.Pairwise fun g g' => ∀ t ∈ g, t ∉ g') (hnodup : (symbols ++ rest).Nodup) :
    (rest.foldl join groups).Pairwise fun g g' => ∀ t ∈ g, t ∉ g' := by
  induction rest generalizing symbols groups with
  | nil => exact h
  | cons s rest ih =>
    have hs : s ∉ symbols := fun hs =>
      (List.nodup_append.1 hnodup).2.2 s hs s List.mem_cons_self rfl
    exact ih (hc.join s) (pairwise_join hc hs h) (by simpa using hnodup)

/-- The outside arrays come one by one. -/
theorem nodup_outsideArrays (hp : p.SymbolsNamed) : p.outsideArrays.Nodup := by
  have hnodup : (p.outsideNames.toList.filterMap p.symbols.find?).Nodup := by
    refine List.Pairwise.filterMap _ (fun x y hne s hx t hy => ?_) p.outsideNames.nodup_toList
    rintro rfl
    exact hne ((hp x s hx).symm.trans (hp y s hy))
  exact hnodup.filter _

/-- No name is in two groups of the list. -/
theorem pairwise_ofProgram (hp : p.SymbolsNamed) :
    (ofProgram p).Pairwise fun G H => ∀ x ∈ G.members, x ∉ H.members := by
  have hnone : Components [] [] := ⟨by simp, by simp, by simp, by simp⟩
  have hgroups : (p.outsideArrays.foldl join []).Pairwise fun g g' => ∀ t ∈ g, t ∉ g' :=
    pairwise_foldl_join hnone .nil (nodup_outsideArrays hp)
  have hcovers := (Components.of_foldl p.outsideArrays).covers
  rw [ofProgram, (List.mergeSort_perm _ _).pairwise_iff fun hG x hx hx' => hG x hx' hx,
    List.pairwise_map]
  refine hgroups.imp_of_mem fun {g g'} hg hg' hapart x hx hx' => ?_
  obtain ⟨s, hs, rfl⟩ := List.mem_map.1 (OrderedSet.mem_ofList.1 hx)
  obtain ⟨t, ht, heq⟩ := List.mem_map.1 (OrderedSet.mem_ofList.1 hx')
  cases eq_of_name_eq hp ((hcovers t).2 ⟨g', hg', ht⟩) ((hcovers s).2 ⟨g, hg, hs⟩) heq
  exact hapart s hs ht

/-! ### The first member -/

theorem target_eq (G : AliasGroup) : G.target = .var G.first := rfl

/-- The first member comes before all others. -/
theorem first_le {x : String} (hx : x ∈ G.members) : (compare G.first x).isLE = true := by
  obtain ⟨⟨l, hl⟩⟩ := G
  cases l with
  | nil => cases hx
  | cons y l =>
    rcases List.mem_cons.1 hx with rfl | hx
    · exact ReflCmp.isLE_rfl
    · exact Ordering.isLE_of_eq_lt ((List.pairwise_cons.1 hl).1 x hx)

/-- The groups are listed by their storages. -/
theorem increasing_ofProgram (hp : p.SymbolsNamed) :
    (ofProgram p).Pairwise fun G H => compare G.target H.target = .lt := by
  have hsorted : (ofProgram p).Pairwise fun G H => (compare G.target H.target).isLE = true :=
    List.pairwise_mergeSort (fun _ _ _ => TransCmp.isLE_trans)
      (fun a b => by
        cases h : compare a.target b.target <;> simp [OrientedCmp.eq_swap (a := b.target), h]) _
  refine (hsorted.and (pairwise_ofProgram hp)).imp_of_mem fun {G H} hG hH hGH => ?_
  obtain ⟨hle, hapart⟩ := hGH
  refine (Ordering.isLE_iff_eq_lt_or_eq_eq.1 hle).resolve_right fun heq => ?_
  -- Groups of one storage have its name in common.
  have hfirst : G.first = H.first := Expr.var.inj (LawfulEqCmp.eq_of_compare heq)
  exact hapart G.first (first_mem hG) (hfirst ▸ first_mem hH)

/-! ### The partition -/

/-- Some groups part the arrays of a collection. -/
structure Partitions (uses : Symbol → Prop) (groups : List AliasGroup) : Prop where
  covers : ∀ x, (∃ G ∈ groups, x ∈ G.members) ↔ ∃ s, uses s ∧ s.name = x
  apart : groups.Pairwise fun G H => ∀ x ∈ G.members, x ∉ H.members
  /-- Arrays are in one group if a chain within the collection leads from one to the other. -/
  chain : ∀ s t, uses s → uses t → ((∃ G ∈ groups, s.name ∈ G.members ∧ t.name ∈ G.members) ↔
    Relation.ReflTransGen (fun u v => uses u ∧ uses v ∧ u.mayAlias v = true) s t)
  target : ∀ G ∈ groups, ∃ x ∈ G.members, G.target = .var x ∧
    ∀ y ∈ G.members, (compare x y).isLE = true
  increasing : groups.Pairwise fun G H => compare G.target H.target = .lt
  /-- Only the members are known at first, each with the storage of its group. -/
  mem_seeds : ∀ a, a ∈ seeds groups ↔
    ∃ s, uses s ∧ ∃ G ∈ groups, s.name ∈ G.members ∧ a = ⟨s.name, G.target⟩
  seeds_once : ∀ s, uses s → ∃! a, a ∈ seeds groups ∧ a.source = s.name

/-- A name is in a group if an array of this name is used. -/
theorem exists_mem_members {x : String} :
    (∃ G ∈ ofProgram p, x ∈ G.members) ↔ ∃ s ∈ p.outsideArrays, s.name = x := by
  constructor
  · rintro ⟨G, hG, hx⟩
    obtain ⟨s, hs, hmembers⟩ := mem_ofProgram.1 hG
    obtain ⟨t, hst, rfl⟩ := (hmembers x).1 hx
    exact ⟨t, hst.mem hs, rfl⟩
  · rintro ⟨s, hs, rfl⟩
    obtain ⟨G, hG, hmembers⟩ := exists_group hs
    exact ⟨G, hG, (hmembers s.name).2 ⟨s, .refl, rfl⟩⟩

/-- Two arrays are in one group if a chain leads from one to the other. -/
theorem exists_common_group (hp : p.SymbolsNamed) {s t : Symbol} (hs : s ∈ p.outsideArrays)
    (ht : t ∈ p.outsideArrays) :
    (∃ G ∈ ofProgram p, s.name ∈ G.members ∧ t.name ∈ G.members) ↔ Linked p.outsideArrays s t := by
  obtain ⟨G, hG, hmembers⟩ := exists_group hs
  have hself : s.name ∈ G.members := (hmembers s.name).2 ⟨s, .refl, rfl⟩
  constructor
  · rintro ⟨H, hH, hsH, htH⟩
    obtain rfl := eq_of_mem_members hp hG hH hself hsH
    obtain ⟨u, hsu, heq⟩ := (hmembers t.name).1 htH
    obtain rfl := eq_of_name_eq hp (hsu.mem hs) ht heq
    exact hsu
  · exact fun hst => ⟨G, hG, hself, (hmembers t.name).2 ⟨t, hst, rfl⟩⟩

theorem linked_iff {s t : Symbol} (hs : s ∈ p.outsideArrays) : Linked p.outsideArrays s t ↔
    Relation.ReflTransGen (fun u v => u ∈ p.outsideArrays ∧ v ∈ p.outsideArrays ∧
      u.mayAlias v = true) s t := by
  constructor
  · intro h
    induction h with
    | refl => exact .refl
    | tail hfirst hstep ih => exact ih.tail ⟨Linked.mem hfirst hs, hstep⟩
  · exact fun h => Relation.ReflTransGen.mono (fun _ _ hstep => hstep.2) _ _ h

/-- **The groups of a program part the outside arrays that it uses**, if every symbol stands under
its own name. -/
theorem ofProgram_partitions (hp : p.SymbolsNamed) : Partitions p.UsesArray (ofProgram p) := by
  have huses : p.UsesArray = fun s => s ∈ p.outsideArrays :=
    funext fun s => propext (Program.mem_outsideArrays_iff hp).symm
  rw [huses]
  have hseeds : ∀ a, a ∈ seeds (ofProgram p) ↔ ∃ s ∈ p.outsideArrays, ∃ G ∈ ofProgram p,
      s.name ∈ G.members ∧ a = ⟨s.name, G.target⟩ := by
    rintro ⟨x, e⟩
    rw [mem_seeds]
    constructor
    · rintro ⟨G, hG, hx, rfl⟩
      obtain ⟨s, hs, rfl⟩ := exists_mem_members.1 ⟨G, hG, hx⟩
      exact ⟨s, hs, G, hG, hx, rfl⟩
    · rintro ⟨s, -, G, hG, hx, heq⟩
      cases heq
      exact ⟨G, hG, hx, rfl⟩
  refine ⟨fun x => exists_mem_members, pairwise_ofProgram hp,
    fun s t hs ht => (exists_common_group hp hs ht).trans (linked_iff hs),
    fun G hG => ⟨G.first, first_mem hG, target_eq G, fun y => first_le⟩,
    increasing_ofProgram hp, hseeds, fun s hs => ?_⟩
  obtain ⟨G, hG, hsG⟩ := exists_mem_members.2 ⟨s, hs, rfl⟩
  refine ⟨⟨s.name, G.target⟩, ⟨(hseeds _).2 ⟨s, hs, G, hG, hsG, rfl⟩, rfl⟩, ?_⟩
  rintro a ⟨ha, hsource⟩
  obtain ⟨t, -, H, hH, htH, rfl⟩ := (hseeds a).1 ha
  have hname : t.name = s.name := hsource
  rw [hname] at htH ⊢
  rw [eq_of_mem_members hp hH hG htH hsG]

/-- A loop over arrays of which one may be the same as the two others, and one is apart. -/
def bridgedLoop : Program :=
  let fresh : List Rebinding := [⟨.initializer, .fresh⟩]
  let node := ElementType.named "Node"
  let reads := ["d", "c", "b", "a"].map fun x => Instr.assign (.var "x") (.access x [.var "i"])
  ((((Program.ofBody "i" reads).withSymbol
    ⟨"a", .privateMember, node, 1, fresh⟩).withSymbol
    ⟨"b", .privateMember, node, 1, [⟨.assignment, .reference⟩]⟩).withSymbol
    ⟨"c", .privateMember, node, 1, fresh⟩).withSymbol
    ⟨"d", .parameter, .named "int", 1, []⟩

/-- The array in the middle brings the two others into its group. -/
theorem bridgedLoop_partitions : bridgedLoop.SymbolsNamed ∧
    (ofProgram bridgedLoop).map (fun G => (G.target, G.members.toList)) =
      [(.var "a", ["a", "b", "c"]), (.var "d", ["d"])] ∧
    Partitions bridgedLoop.UsesArray (ofProgram bridgedLoop) := by
  have hnamed : bridgedLoop.SymbolsNamed := by
    intro x s hs
    have hall : ∀ e ∈ bridgedLoop.symbols.entries, e.2.name = e.1 := by decide
    exact hall _ (NameMap.mem_entries_of_find? hs)
  refine ⟨hnamed, ?_, ofProgram_partitions hnamed⟩
  -- The groups come out in order, so that sorting leaves them as they are.
  rw [ofProgram, List.mergeSort_of_pairwise (by decide)]
  decide

end AliasGroup

end ParLoop
