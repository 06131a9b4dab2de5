/-!
# Tables indexed by names

A `NameMap β` lists its entries by strictly increasing name, so a table is determined by what it
answers, and its entries come out in name order. `find?_insert` says what an insertion changes.
-/

namespace ParLoop

open Std

/-- A table from names to values, in increasing order of names. -/
structure NameMap (β : Type) where
  entries : List (String × β)
  increasing : entries.Pairwise fun a b => compare a.1 b.1 = .lt

namespace NameMap

variable {β γ : Type}

instance [DecidableEq β] : DecidableEq (NameMap β) := fun s t =>
  if h : s.entries = t.entries then
    isTrue (by cases s; cases t; cases h; rfl)
  else
    isFalse fun e => h (congrArg entries e)

/-- The table without entries. -/
def empty : NameMap β := ⟨[], .nil⟩

instance : EmptyCollection (NameMap β) := ⟨empty⟩

instance : Inhabited (NameMap β) := ⟨empty⟩

/-- The names in the table, in order. -/
def names (m : NameMap β) : List String := m.entries.map (·.1)

/-- The values of the table, in the order of their names. -/
def values (m : NameMap β) : List β := m.entries.map (·.2)

/-- The number of entries. -/
def size (m : NameMap β) : Nat := m.entries.length

/-- The first value listed under a name. -/
def findList (name : String) : List (String × β) → Option β
  | [] => none
  | (k, v) :: rest => if k = name then some v else findList name rest

/-- The value stored under a name. -/
def find? (m : NameMap β) (name : String) : Option β := findList name m.entries

/-- Whether a name has a value. -/
def contains (m : NameMap β) (name : String) : Bool := (m.find? name).isSome

/-- Puts a value under a name in an increasing list, replacing the value of an equal name. -/
def insertList (name : String) (value : β) : List (String × β) → List (String × β)
  | [] => [(name, value)]
  | (k, v) :: rest =>
    match compare name k with
    | .lt => (name, value) :: (k, v) :: rest
    | .eq => (name, value) :: rest
    | .gt => (k, v) :: insertList name value rest

theorem mem_of_mem_insertList {name : String} {value : β} {e : String × β}
    {l : List (String × β)} (h : e ∈ insertList name value l) : e = (name, value) ∨ e ∈ l := by
  induction l with
  | nil => exact .inl (by simpa [insertList] using h)
  | cons kv rest ih =>
    rw [insertList] at h
    split at h
    · exact List.mem_cons.1 h
    · exact (List.mem_cons.1 h).imp id (List.mem_cons_of_mem _)
    · rcases List.mem_cons.1 h with h | h
      · exact .inr (by simp [h])
      · exact (ih h).imp id (List.mem_cons_of_mem _)

theorem insertList_increasing (name : String) (value : β) {l : List (String × β)}
    (h : l.Pairwise fun a b => compare a.1 b.1 = .lt) :
    (insertList name value l).Pairwise fun a b => compare a.1 b.1 = .lt := by
  induction l with
  | nil => simp [insertList]
  | cons kv rest ih =>
    obtain ⟨hk, hrest⟩ := List.pairwise_cons.1 h
    rw [insertList]
    split
    case h_1 hlt =>
      refine List.pairwise_cons.2 ⟨fun e he => ?_, h⟩
      rcases List.mem_cons.1 he with rfl | he
      · exact hlt
      · exact TransCmp.lt_trans hlt (hk e he)
    case h_2 heq =>
      refine List.pairwise_cons.2 ⟨fun e he => ?_, hrest⟩
      exact TransCmp.lt_of_eq_of_lt heq (hk e he)
    case h_3 hgt =>
      refine List.pairwise_cons.2 ⟨fun e he => ?_, ih hrest⟩
      rcases mem_of_mem_insertList he with rfl | he
      · exact OrientedCmp.lt_of_gt hgt
      · exact hk e he

/-- The table with a value stored under a name; an earlier value of that name is gone. -/
def insert (m : NameMap β) (name : String) (value : β) : NameMap β :=
  ⟨insertList name value m.entries, insertList_increasing name value m.increasing⟩

/-- The table with each value changed by a function of its name and itself. -/
def mapValues (f : String → β → γ) (m : NameMap β) : NameMap γ :=
  ⟨m.entries.map fun e => (e.1, f e.1 e.2),
    List.pairwise_map.2 (m.increasing.imp fun h => h)⟩

/-- The table of a list of entries; of two entries with one name the later counts. -/
def ofList (l : List (String × β)) : NameMap β := l.foldl (fun m e => m.insert e.1 e.2) ∅

@[simp] theorem find?_empty (name : String) : (∅ : NameMap β).find? name = none := rfl

theorem findList_insertList (name other : String) (value : β) (l : List (String × β)) :
    findList other (insertList name value l) =
      if name = other then some value else findList other l := by
  induction l with
  | nil => rfl
  | cons kv rest ih =>
    rw [insertList]
    split
    case h_1 => rfl
    case h_2 heq =>
      have hk : name = kv.1 := LawfulEqCmp.eq_of_compare heq
      simp only [findList, ← hk]
      split <;> rfl
    case h_3 hgt =>
      have hne : kv.1 ≠ name := by
        rintro rfl
        exact absurd hgt (by simp)
      simp only [findList, ih]
      by_cases hk : kv.1 = other
      · have : name ≠ other := fun h => hne (hk.trans h.symm)
        simp [hk, this]
      · simp [hk]

/-- An insertion changes the answer for its own name only. -/
theorem find?_insert (m : NameMap β) (name other : String) (value : β) :
    (m.insert name value).find? other = if name = other then some value else m.find? other :=
  findList_insertList name other value m.entries

end NameMap

end ParLoop
