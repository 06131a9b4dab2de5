/-!
# Finite sets in increasing order

An `OrderedSet α` is a strictly increasing list. Its elements are listed in one order only, so two
sets with the same members are equal (`OrderedSet.ext`), and everything computed from a set is
independent of how the set was built.

Each operation has a lemma that says which members it leaves: `mem_insert`, `mem_ofList`,
`mem_union`, `mem_inter`, `mem_filter`.
-/

namespace ParLoop

open Std

/-- Where equality of both keys is equality, the order by the two keys is lawful. -/
theorem lawfulEqCmp_lex {α : Type} {first second : α → α → Ordering} [ReflCmp first]
    [ReflCmp second] (h : ∀ a b, first a b = .eq → second a b = .eq → a = b) :
    LawfulEqCmp (compareLex first second) where
  compare_self {a} := by simp [compareLex, ReflCmp.compare_self]
  eq_of_compare {a b} e := by
    have := Ordering.then_eq_eq.1 e
    exact h a b this.1 this.2

/-- A finite set, listed in strictly increasing order. -/
structure OrderedSet (α : Type) [Ord α] where
  toList : List α
  increasing : toList.Pairwise fun a b => compare a b = .lt

namespace OrderedSet

variable {α : Type} [Ord α]

instance [DecidableEq α] : DecidableEq (OrderedSet α) := fun s t =>
  if h : s.toList = t.toList then
    isTrue (by cases s; cases t; cases h; rfl)
  else
    isFalse fun e => h (congrArg toList e)

/-- The set without members. -/
def empty : OrderedSet α := ⟨[], .nil⟩

instance : EmptyCollection (OrderedSet α) := ⟨empty⟩

instance : Inhabited (OrderedSet α) := ⟨empty⟩

instance : Membership α (OrderedSet α) := ⟨fun s a => a ∈ s.toList⟩

instance [DecidableEq α] (a : α) (s : OrderedSet α) : Decidable (a ∈ s) :=
  inferInstanceAs (Decidable (a ∈ s.toList))

/-- Whether the set has no member. -/
def isEmpty (s : OrderedSet α) : Bool := s.toList.isEmpty

/-- The number of members. -/
def size (s : OrderedSet α) : Nat := s.toList.length

/-- Membership as a test. -/
def contains [DecidableEq α] (s : OrderedSet α) (a : α) : Bool := decide (a ∈ s)

/-- The members that pass a test. -/
def filter (p : α → Bool) (s : OrderedSet α) : OrderedSet α :=
  ⟨s.toList.filter p, s.increasing.filter p⟩

theorem mem_iff {a : α} {s : OrderedSet α} : a ∈ s ↔ a ∈ s.toList := Iff.rfl

@[simp] theorem not_mem_empty (a : α) : a ∉ (∅ : OrderedSet α) := List.not_mem_nil

@[simp] theorem contains_iff [DecidableEq α] {s : OrderedSet α} {a : α} :
    s.contains a = true ↔ a ∈ s := decide_eq_true_iff

@[simp] theorem mem_filter {p : α → Bool} {s : OrderedSet α} {a : α} :
    a ∈ s.filter p ↔ a ∈ s ∧ p a = true := List.mem_filter

/-! ### Insertion -/

/-- Puts an element at its place in an increasing list; an equal element keeps its place. -/
def insertList (a : α) : List α → List α
  | [] => [a]
  | b :: rest =>
    match compare a b with
    | .lt => a :: b :: rest
    | .eq => b :: rest
    | .gt => b :: insertList a rest

/-- Every member after an insertion is the new element or was a member. -/
theorem mem_of_mem_insertList {a c : α} {l : List α} (h : c ∈ insertList a l) : c = a ∨ c ∈ l := by
  induction l with
  | nil => exact .inl (by simpa [insertList] using h)
  | cons b rest ih =>
    rw [insertList] at h
    split at h
    · rcases List.mem_cons.1 h with h | h
      · exact .inl h
      · exact .inr h
    · exact .inr h
    · rcases List.mem_cons.1 h with h | h
      · exact .inr (by simp [h])
      · exact (ih h).imp id fun m => List.mem_cons_of_mem _ m

theorem insertList_increasing [TransOrd α] (a : α) {l : List α}
    (h : l.Pairwise fun a b => compare a b = .lt) :
    (insertList a l).Pairwise fun a b => compare a b = .lt := by
  induction l with
  | nil => simp [insertList]
  | cons b rest ih =>
    have hb := (List.pairwise_cons.1 h).1
    rw [insertList]
    split
    case h_1 hab =>
      refine List.pairwise_cons.2 ⟨fun c hc => ?_, h⟩
      rcases List.mem_cons.1 hc with rfl | hc
      · exact hab
      · exact TransCmp.lt_trans hab (hb c hc)
    case h_2 => exact h
    case h_3 hab =>
      refine List.pairwise_cons.2 ⟨fun c hc => ?_, ih (List.pairwise_cons.1 h).2⟩
      rcases mem_of_mem_insertList hc with rfl | hc
      · exact OrientedCmp.lt_of_gt hab
      · exact hb c hc

theorem mem_insertList [LawfulEqOrd α] {a c : α} {l : List α} :
    c ∈ insertList a l ↔ c = a ∨ c ∈ l := by
  refine ⟨mem_of_mem_insertList, ?_⟩
  induction l with
  | nil => simp [insertList]
  | cons b rest ih =>
    intro h
    rw [insertList]
    split
    case h_1 => simpa using h
    case h_2 hab =>
      have hab : a = b := LawfulEqCmp.eq_of_compare hab
      simp only [List.mem_cons] at h ⊢
      rcases h with h | h
      · exact .inl (h.trans hab)
      · exact h
    case h_3 =>
      simp only [List.mem_cons] at h ⊢
      rcases h with h | h | h
      · exact .inr (ih (.inl h))
      · exact .inl h
      · exact .inr (ih (.inr h))

variable [TransOrd α]

/-- The set with one more member. -/
def insert (s : OrderedSet α) (a : α) : OrderedSet α :=
  ⟨insertList a s.toList, insertList_increasing a s.increasing⟩

/-- The set of the elements of a list. -/
def ofList (l : List α) : OrderedSet α := l.foldl insert ∅

/-! ### Union and intersection -/

/-- Merges `a` and what follows it (through `next`) into an increasing list. -/
def mergeHead (a : α) (next : List α → List α) : List α → List α
  | [] => a :: next []
  | b :: rest =>
    match compare a b with
    | .lt => a :: next (b :: rest)
    | .eq => a :: next rest
    | .gt => b :: mergeHead a next rest

/-- Merges two increasing lists, keeping one of two equal elements. -/
def mergeList : List α → List α → List α
  | [] => id
  | a :: rest => mergeHead a (mergeList rest)

omit [TransOrd α] in
theorem mem_of_mem_mergeList {c : α} {l m : List α} (h : c ∈ mergeList l m) : c ∈ l ∨ c ∈ m := by
  induction l generalizing m with
  | nil => exact .inr h
  | cons a l ih =>
    rw [mergeList] at h
    induction m with
    | nil =>
      rcases List.mem_cons.1 h with h | h
      · exact .inl (by simp [h])
      · exact (ih h).imp (List.mem_cons_of_mem _) id
    | cons b m ihm =>
      rw [mergeHead] at h
      split at h
      · rcases List.mem_cons.1 h with h | h
        · exact .inl (by simp [h])
        · exact (ih h).imp (List.mem_cons_of_mem _) id
      · rcases List.mem_cons.1 h with h | h
        · exact .inl (by simp [h])
        · exact (ih h).imp (List.mem_cons_of_mem _) (List.mem_cons_of_mem _)
      · rcases List.mem_cons.1 h with h | h
        · exact .inr (by simp [h])
        · exact (ihm h).imp id (List.mem_cons_of_mem _)

theorem mergeList_increasing {l m : List α} (hl : l.Pairwise fun a b => compare a b = .lt)
    (hm : m.Pairwise fun a b => compare a b = .lt) :
    (mergeList l m).Pairwise fun a b => compare a b = .lt := by
  induction l generalizing m with
  | nil => exact hm
  | cons a l ih =>
    obtain ⟨ha, hl'⟩ := List.pairwise_cons.1 hl
    rw [mergeList]
    induction m with
    | nil =>
      refine List.pairwise_cons.2 ⟨fun c hc => ?_, ih hl' .nil⟩
      rcases mem_of_mem_mergeList hc with hc | hc
      · exact ha c hc
      · exact absurd hc List.not_mem_nil
    | cons b m ihm =>
      obtain ⟨hb, hm'⟩ := List.pairwise_cons.1 hm
      rw [mergeHead]
      split
      case h_1 hab =>
        refine List.pairwise_cons.2 ⟨fun c hc => ?_, ih hl' hm⟩
        rcases mem_of_mem_mergeList hc with hc | hc
        · exact ha c hc
        · rcases List.mem_cons.1 hc with rfl | hc
          · exact hab
          · exact TransCmp.lt_trans hab (hb c hc)
      case h_2 hab =>
        refine List.pairwise_cons.2 ⟨fun c hc => ?_, ih hl' hm'⟩
        rcases mem_of_mem_mergeList hc with hc | hc
        · exact ha c hc
        · exact TransCmp.lt_of_eq_of_lt hab (hb c hc)
      case h_3 hab =>
        refine List.pairwise_cons.2 ⟨fun c hc => ?_, ihm hm'⟩
        have hc' : c ∈ mergeList (a :: l) m := hc
        rcases mem_of_mem_mergeList hc' with hc | hc
        · rcases List.mem_cons.1 hc with rfl | hc
          · exact OrientedCmp.lt_of_gt hab
          · exact TransCmp.lt_trans (OrientedCmp.lt_of_gt hab) (ha c hc)
        · exact hb c hc

omit [TransOrd α] in
theorem mem_mergeList [LawfulEqOrd α] {c : α} {l m : List α} :
    c ∈ mergeList l m ↔ c ∈ l ∨ c ∈ m := by
  refine ⟨mem_of_mem_mergeList, ?_⟩
  induction l generalizing m with
  | nil => simp [mergeList]
  | cons a l ih =>
    intro h
    rw [mergeList]
    induction m with
    | nil =>
      simp only [mergeHead, List.mem_cons] at h ⊢
      grind
    | cons b m ihm =>
      rw [mergeHead]
      split
      case h_1 =>
        simp only [List.mem_cons] at h ⊢
        grind
      case h_2 hab =>
        have hab : a = b := LawfulEqCmp.eq_of_compare hab
        simp only [List.mem_cons] at h ⊢
        grind
      case h_3 =>
        simp only [List.mem_cons] at h ihm ⊢
        grind

/-- The members of either set. -/
def union (s t : OrderedSet α) : OrderedSet α :=
  ⟨mergeList s.toList t.toList, mergeList_increasing s.increasing t.increasing⟩

/-- The members of both sets. -/
def inter [DecidableEq α] (s t : OrderedSet α) : OrderedSet α := s.filter t.contains

variable [LawfulEqOrd α]

@[simp] theorem mem_insert {s : OrderedSet α} {a c : α} : c ∈ s.insert a ↔ c = a ∨ c ∈ s :=
  mem_insertList

@[simp] theorem mem_ofList {l : List α} {a : α} : a ∈ ofList l ↔ a ∈ l := by
  suffices h : ∀ s : OrderedSet α, a ∈ l.foldl insert s ↔ a ∈ s ∨ a ∈ l by
    simpa [ofList] using h ∅
  induction l with
  | nil => simp
  | cons b l ih =>
    intro s
    rw [List.foldl_cons, ih, mem_insert, List.mem_cons]
    grind

@[simp] theorem mem_union {s t : OrderedSet α} {a : α} : a ∈ s.union t ↔ a ∈ s ∨ a ∈ t :=
  mem_mergeList

omit [LawfulEqOrd α] [TransOrd α] in
@[simp] theorem mem_inter [DecidableEq α] {s t : OrderedSet α} {a : α} :
    a ∈ s.inter t ↔ a ∈ s ∧ a ∈ t := by
  simp [inter]

/-- Increasing lists with the same members are equal. -/
theorem eq_of_mem_iff {l m : List α} (hl : l.Pairwise fun a b => compare a b = .lt)
    (hm : m.Pairwise fun a b => compare a b = .lt) (h : ∀ a, a ∈ l ↔ a ∈ m) : l = m := by
  induction l generalizing m with
  | nil =>
    cases m with
    | nil => rfl
    | cons b m => exact absurd ((h b).2 (by simp)) List.not_mem_nil
  | cons a l ih =>
    cases m with
    | nil => exact absurd ((h a).1 (by simp)) List.not_mem_nil
    | cons b m =>
      obtain ⟨ha, hl'⟩ := List.pairwise_cons.1 hl
      obtain ⟨hb, hm'⟩ := List.pairwise_cons.1 hm
      have hab : a = b := by
        rcases List.mem_cons.1 ((h a).1 (by simp)) with e | e
        · exact e
        · rcases List.mem_cons.1 ((h b).2 (by simp)) with e' | e'
          · exact e'.symm
          · exact absurd (ha b e') (OrientedCmp.not_lt_of_lt (hb a e))
      subst hab
      congr 1
      refine ih hl' hm' fun c => ?_
      have hne : ∀ {k : List α}, (∀ d ∈ k, compare a d = .lt) → c ∈ k → c ≠ a := by
        rintro k hk hc rfl
        exact absurd (hk c hc) (by simp)
      constructor
      · intro hc
        rcases List.mem_cons.1 ((h c).1 (List.mem_cons_of_mem _ hc)) with e | e
        · exact absurd e (hne ha hc)
        · exact e
      · intro hc
        rcases List.mem_cons.1 ((h c).2 (List.mem_cons_of_mem _ hc)) with e | e
        · exact absurd e (hne hb hc)
        · exact e

/-- Sets with the same members are equal. -/
@[ext] theorem ext {s t : OrderedSet α} (h : ∀ a, a ∈ s ↔ a ∈ t) : s = t := by
  have e := eq_of_mem_iff s.increasing t.increasing h
  cases s
  cases t
  cases e
  rfl

end OrderedSet

end ParLoop
