import ParLoop.NameMap

/-!
# Tables indexed by names

What the entries, the names and the answers of a table say of each other.
-/

namespace ParLoop.NameMap

variable {β : Type} {m m' : NameMap β} {name other : String} {value : β}

theorem eq_of_entries_eq (h : m.entries = m'.entries) : m = m' := by
  cases m
  cases m'
  cases h
  rfl

theorem mem_map_fst_of_findList {l : List (String × β)} (h : (findList name l).isSome = true) :
    name ∈ l.map (·.1) := by
  induction l with
  | nil => cases h
  | cons e l ih =>
    rw [findList] at h
    split at h
    case isTrue he => simp [← he]
    case isFalse => exact List.mem_cons_of_mem _ (ih h)

theorem mem_names_of_contains (h : m.contains name = true) : name ∈ m.names :=
  mem_map_fst_of_findList h

theorem contains_insert :
    (m.insert name value).contains other = true ↔ name = other ∨ m.contains other = true := by
  rw [contains, find?_insert]
  split <;> simp_all [contains]

/-- A table finds its entries. -/
theorem find?_of_mem (h : (name, value) ∈ m.entries) : m.find? name = some value := by
  obtain ⟨entries, increasing⟩ := m
  show findList name entries = some value
  induction entries with
  | nil => cases h
  | cons e entries ih =>
    obtain ⟨key, v⟩ := e
    obtain ⟨hfirst, hrest⟩ := List.pairwise_cons.1 increasing
    rcases List.mem_cons.1 h with heq | h
    · cases heq
      exact if_pos rfl
    · have hne : key ≠ name := by
        rintro rfl
        exact absurd (hfirst _ h) (by simp)
      rw [findList, if_neg hne]
      exact ih hrest h

/-- What a table finds is one of its values. -/
theorem mem_entries_of_find? (h : m.find? name = some value) : (name, value) ∈ m.entries := by
  have hlist : ∀ l : List (String × β), findList name l = some value → (name, value) ∈ l := by
    intro l hl
    induction l with
    | nil => cases hl
    | cons e l ih =>
      rw [findList] at hl
      split at hl
      case isTrue he =>
        cases hl
        cases he
        exact List.mem_cons_self
      case isFalse => exact List.mem_cons_of_mem _ (ih hl)
  exact hlist m.entries h

/-- A name behind all others is put at the end. -/
theorem insertList_of_lt {l : List (String × β)} (h : ∀ e ∈ l, compare e.1 name = .lt) :
    insertList name value l = l ++ [(name, value)] := by
  induction l with
  | nil => rfl
  | cons e l ih =>
    obtain ⟨k, v⟩ := e
    obtain ⟨he, hl⟩ := List.forall_mem_cons.1 h
    have hgt : compare name k = .gt := Std.OrientedCmp.gt_of_lt he
    simp only [insertList, hgt, ih hl, List.cons_append]

theorem nodup_names (m : NameMap β) : m.names.Nodup := by
  refine List.pairwise_map.2 (m.increasing.imp fun {a b} hlt heq => ?_)
  rw [heq] at hlt
  simp at hlt

/-! ### Other values and other names -/

variable {γ : Type} {σ : String → String}

@[simp] theorem find?_mapValues (f : String → β → γ) (m : NameMap β) (name : String) :
    (m.mapValues f).find? name = (m.find? name).map (f name) := by
  have hlist : ∀ l : List (String × β),
      findList name (l.map fun e => (e.1, f e.1 e.2)) = (findList name l).map (f name) := by
    intro l
    induction l with
    | nil => rfl
    | cons e l ih =>
      rw [List.map_cons, findList, findList]
      split
      case isTrue he => rw [← he]; rfl
      case isFalse => exact ih
  exact hlist m.entries

theorem mapValues_insert (f : String → β → γ) (m : NameMap β) (name : String) (value : β) :
    (m.insert name value).mapValues f = (m.mapValues f).insert name (f name value) := by
  have hlist : ∀ l : List (String × β),
      (insertList name value l).map (fun e => (e.1, f e.1 e.2)) =
        insertList name (f name value) (l.map fun e => (e.1, f e.1 e.2)) := by
    intro l
    induction l with
    | nil => rfl
    | cons e l ih =>
      rw [List.map_cons, insertList, insertList]
      split
      · rfl
      · rfl
      · rw [List.map_cons, ih]
  exact eq_of_entries_eq (hlist m.entries)

/-- The table with other names and other values. -/
def mapEntries (σ : String → String) (f : β → γ) (m : NameMap β) : NameMap γ :=
  .ofList (m.entries.map fun e => (σ e.1, f e.2))

/-- No name is lost if the other names are one-to-one. -/
theorem find?_mapEntries (hσ : ∀ x y, σ x = σ y → x = y) (f : β → γ) (m : NameMap β)
    (name : String) : (m.mapEntries σ f).find? (σ name) = (m.find? name).map f := by
  -- The entries are put in one after the other; each name comes once.
  have hlist : ∀ (l : List (String × β)) (t : NameMap γ), (l.map (·.1)).Nodup →
      ((l.map fun e => (σ e.1, f e.2)).foldl (fun m e => m.insert e.1 e.2) t).find? (σ name) =
        ((findList name l).map f).or (t.find? (σ name)) := by
    intro l
    induction l with
    | nil => intro t _; rfl
    | cons e l ih =>
      intro t hnodup
      obtain ⟨hfirst, hrest⟩ := List.nodup_cons.1 hnodup
      rw [List.map_cons, List.foldl_cons, ih _ hrest, find?_insert, findList]
      by_cases he : e.1 = name
      · have hnone : findList name l = none := by
          rw [Option.eq_none_iff_forall_not_mem]
          intro v hv
          have hmem := mem_map_fst_of_findList (Option.isSome_iff_exists.2 ⟨v, hv⟩)
          rw [← he] at hmem
          exact hfirst hmem
        rw [hnone, if_pos he, if_pos (congrArg σ he)]
        rfl
      · rw [if_neg he, if_neg fun h => he (hσ _ _ h)]
  have hall := hlist m.entries ∅ m.nodup_names
  rwa [find?_empty, Option.or_none] at hall

end ParLoop.NameMap
