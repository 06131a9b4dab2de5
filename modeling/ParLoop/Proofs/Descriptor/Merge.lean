import Mathlib.Data.List.Perm.Basic
import ParLoop.Proofs.Flow.Dependence

/-!
# Merging descriptors is a join

A set of descriptors is known by two views, the definitions and the kinds of each variable
(`ext_views`). In the first view merging is union. In the second one it is union as well, unless the
variable has several definitions then and loses its kinds (`definitionsOf_merge`, `kindsOf_merge`).
Definitions are never lost, so that kinds which are lost in one order of merging are lost in every
order: merging is associative, and what a list of sets is merged to depends on the members of the
list only (`merge_joins`).
-/

namespace ParLoop

namespace OrderedSet

variable {α : Type} [Ord α] [Std.TransOrd α] [Std.LawfulEqOrd α]

theorem union_comm (s t : OrderedSet α) : s.union t = t.union s := by
  ext a
  simp [or_comm]

theorem union_assoc (s t u : OrderedSet α) : (s.union t).union u = s.union (t.union u) := by
  ext a
  simp [or_assoc]

/-- Several members stay several in a union. -/
theorem two_le_size_union {s : OrderedSet α} (h : 2 ≤ s.size) (t : OrderedSet α) :
    2 ≤ (s.union t).size := by
  by_contra hlt
  have hall := size_le_one_iff.1 (Nat.lt_succ_iff.1 (Nat.lt_of_not_le hlt))
  have hone : s.size ≤ 1 := size_le_one_iff.2 fun a ha b hb =>
    hall a (mem_union.2 (Or.inl ha)) b (mem_union.2 (Or.inl hb))
  omega

end OrderedSet

namespace Descriptor

variable {a b c s t : OrderedSet Descriptor} {x : String} {l m : List (OrderedSet Descriptor)}

/-- A variable with several definitions has no kind. -/
def Normal (s : OrderedSet Descriptor) : Prop :=
  ∀ x, 2 ≤ (definitionsOf s x).size → kindsOf s x = ∅

/-! ### Two views of a set -/

/-- Sets with the same definitions and the same kinds of every variable are equal. -/
theorem ext_views (hdefinitions : ∀ x, definitionsOf s x = definitionsOf t x)
    (hkinds : ∀ x, kindsOf s x = kindsOf t x) : s = t := by
  ext ⟨x, m⟩
  cases m with
  | kind k => rw [← mem_kindsOf, hkinds, mem_kindsOf]
  | definition n => rw [← mem_definitionsOf, hdefinitions, mem_definitionsOf]

theorem definitionsOf_merge :
    definitionsOf (merge a b) x = (definitionsOf a x).union (definitionsOf b x) := by
  ext n
  simp [mem_definitionsOf, definition_mem_merge]

theorem definedOnce_union : DefinedOnce (a.union b) x ↔
    ¬ 2 ≤ ((definitionsOf a x).union (definitionsOf b x)).size := by
  rw [← definedOnce_merge, ← size_definitionsOf_le_one, definitionsOf_merge]
  omega

theorem kindsOf_merge : kindsOf (merge a b) x =
    if 2 ≤ ((definitionsOf a x).union (definitionsOf b x)).size then ∅
    else (kindsOf a x).union (kindsOf b x) := by
  ext k
  rw [mem_kindsOf, kind_mem_merge, definedOnce_union]
  split <;> simp [mem_kindsOf, *]

/-! ### The laws of a join -/

/-- **What is merged is normal.** -/
theorem normal_merge : Normal (merge a b) := by
  intro x h
  rw [definitionsOf_merge] at h
  rw [kindsOf_merge, if_pos h]

theorem merge_comm : merge a b = merge b a := by
  refine ext_views (fun x => ?_) (fun x => ?_)
  · rw [definitionsOf_merge, definitionsOf_merge, OrderedSet.union_comm]
  · rw [kindsOf_merge, kindsOf_merge, OrderedSet.union_comm (definitionsOf a x),
      OrderedSet.union_comm (kindsOf a x)]

/-- Kinds that were lost at the first merge would be lost at the second one too. -/
theorem kindsOf_merge_merge : kindsOf (merge (merge a b) c) x =
    if 2 ≤ (((definitionsOf a x).union (definitionsOf b x)).union (definitionsOf c x)).size then ∅
    else ((kindsOf a x).union (kindsOf b x)).union (kindsOf c x) := by
  rw [kindsOf_merge, definitionsOf_merge]
  split
  case isTrue => rfl
  case isFalse h => rw [kindsOf_merge, if_neg fun h' => h (OrderedSet.two_le_size_union h' _)]

theorem merge_assoc : merge (merge a b) c = merge a (merge b c) := by
  rw [merge_comm (a := a) (b := merge b c)]
  refine ext_views (fun x => ?_) (fun x => ?_)
  · simp only [definitionsOf_merge]
    rw [OrderedSet.union_assoc, OrderedSet.union_comm]
  · rw [kindsOf_merge_merge, kindsOf_merge_merge, OrderedSet.union_assoc (definitionsOf a x),
      OrderedSet.union_comm (definitionsOf a x), OrderedSet.union_assoc (kindsOf a x),
      OrderedSet.union_comm (kindsOf a x)]

/-- A set is left as it is by merging it with itself if and only if it is normal. -/
theorem merge_self_iff_normal : merge a a = a ↔ Normal a := by
  constructor
  · intro h
    rw [← h]
    exact normal_merge
  · intro h
    rw [merge_self_iff]
    intro x k hk
    by_contra honce
    have hmany : 2 ≤ (definitionsOf a x).size := by
      rw [← size_definitionsOf_le_one] at honce
      omega
    rw [← mem_kindsOf, h x hmany] at hk
    exact OrderedSet.not_mem_empty k hk

theorem merge_absorbs_left : merge (merge a b) a = merge a b := by
  rw [merge_comm (a := a), merge_merge_right]

theorem merge_empty (h : Normal a) : merge ∅ a = a := by
  have hdefinitions : ∀ x, (definitionsOf ∅ x).union (definitionsOf a x) = definitionsOf a x := by
    intro x
    ext n
    simp [mem_definitionsOf]
  refine ext_views (fun x => ?_) (fun x => ?_)
  · rw [definitionsOf_merge, hdefinitions]
  · rw [kindsOf_merge, hdefinitions, kindsOf_empty]
    split
    case isTrue hmany => exact (h x hmany).symm
    case isFalse =>
      ext k
      simp

/-! ### Merging a list of sets -/

/-- What was absorbed stays absorbed. -/
theorem foldl_merge_absorbs (h : merge s t = s) : merge (l.foldl merge s) t = l.foldl merge s := by
  induction l generalizing s with
  | nil => exact h
  | cons u l ih => exact ih (merge_merge_of_absorbed h)

theorem foldl_merge_absorbs_of_mem (h : t ∈ l) :
    merge (l.foldl merge s) t = l.foldl merge s := by
  induction l generalizing s with
  | nil => cases h
  | cons u l ih =>
    rw [List.foldl_cons]
    rcases List.mem_cons.1 h with rfl | h
    · exact foldl_merge_absorbs merge_merge_right
    · exact ih h

theorem foldl_merge_of_subset (h : ∀ t ∈ m, t ∈ l) :
    m.foldl merge (l.foldl merge s) = l.foldl merge s := by
  induction m with
  | nil => rfl
  | cons u m ih =>
    rw [List.foldl_cons, foldl_merge_absorbs_of_mem (h u List.mem_cons_self)]
    exact ih fun t ht => h t (List.mem_cons_of_mem _ ht)

/-- The order of a list does not matter. -/
theorem foldl_merge_perm (h : l.Perm m) : l.foldl merge s = m.foldl merge s := by
  refine h.foldl_eq' (fun t _ u _ s => ?_) s
  rw [merge_assoc, merge_comm (a := t), merge_assoc]

/-- Neither order nor repetitions matter. -/
theorem foldl_merge_congr (h : ∀ t, t ∈ l ↔ t ∈ m) : l.foldl merge s = m.foldl merge s :=
  calc l.foldl merge s
    _ = m.foldl merge (l.foldl merge s) := (foldl_merge_of_subset fun t => (h t).2).symm
    _ = (l ++ m).foldl merge s := List.foldl_append.symm
    _ = (m ++ l).foldl merge s := foldl_merge_perm List.perm_append_comm
    _ = l.foldl merge (m.foldl merge s) := List.foldl_append
    _ = m.foldl merge s := foldl_merge_of_subset fun t => (h t).1

/-- The first set of a list can be kept as it is if it is normal or others follow. -/
theorem foldl_merge_empty (h : Normal a ∨ l ≠ []) : (a :: l).foldl merge ∅ = l.foldl merge a := by
  rw [List.foldl_cons]
  cases l with
  | nil => exact merge_empty (h.resolve_right fun h => h rfl)
  | cons u l => rw [List.foldl_cons, merge_assoc, merge_empty normal_merge, List.foldl_cons]

/-- **Merging descriptors is a join.** What is merged is normal and has the definitions of both
sides, and the kinds of both sides where the definitions are at most one. Merging is commutative,
associative, idempotent on the normal sets and on no others, and absorbs. So what a list of sets is
merged to does not depend on order and repetitions, whether it is merged into a given set or, as the
facts that arrive at a node are, begins with its first set. -/
theorem merge_joins :
    (∀ a b, Normal (merge a b)) ∧
    (∀ a b x, definitionsOf (merge a b) x = (definitionsOf a x).union (definitionsOf b x)) ∧
    (∀ a b x, kindsOf (merge a b) x =
      if 2 ≤ ((definitionsOf a x).union (definitionsOf b x)).size then ∅
      else (kindsOf a x).union (kindsOf b x)) ∧
    (∀ a b, merge a b = merge b a) ∧
    (∀ a b c, merge (merge a b) c = merge a (merge b c)) ∧
    (∀ a, merge a a = a ↔ Normal a) ∧
    (∀ a b, merge (merge a b) a = merge a b) ∧
    ∀ l m : List (OrderedSet Descriptor),
      (∀ s, (∀ t, t ∈ l ↔ t ∈ m) → l.foldl merge s = m.foldl merge s) ∧
      (∀ a b, (a :: l).Perm (b :: m) → l.foldl merge a = m.foldl merge b) ∧
      ∀ a b, (∀ t ∈ a :: l, Normal t) → (∀ t, t ∈ a :: l ↔ t ∈ b :: m) →
        l.foldl merge a = m.foldl merge b := by
  refine ⟨fun a b => normal_merge, fun a b x => definitionsOf_merge, fun a b x => kindsOf_merge,
    fun a b => merge_comm, fun a b c => merge_assoc, fun a => merge_self_iff_normal,
    fun a b => merge_absorbs_left, fun l m => ⟨fun s => foldl_merge_congr, fun a b h => ?_,
    fun a b hnormal h => ?_⟩⟩
  · cases l with
    | nil =>
      obtain ⟨rfl, rfl⟩ := List.cons.inj (List.singleton_perm.1 h)
      rfl
    | cons u l =>
      have hm : m ≠ [] := by
        rintro rfl
        simpa using h.length_eq
      rw [← foldl_merge_empty (Or.inr (List.cons_ne_nil u l)), foldl_merge_perm h,
        foldl_merge_empty (Or.inr hm)]
  · have hb : Normal b := hnormal b ((h b).2 List.mem_cons_self)
    rw [← foldl_merge_empty (Or.inl (hnormal a List.mem_cons_self)), foldl_merge_congr h,
      foldl_merge_empty (Or.inl hb)]

/-- Two definitions of `x`, which has a kind on either side. -/
theorem merge_joins_conflict :
    let a : OrderedSet Descriptor := .ofList [⟨"x", .definition 3⟩, ⟨"x", .kind .positive⟩,
      ⟨"y", .kind .loopDependent⟩]
    let b : OrderedSet Descriptor := .ofList [⟨"x", .definition 5⟩, ⟨"x", .kind .positive⟩]
    Normal a ∧ Normal b ∧ [b, a].foldl merge a = [a].foldl merge b ∧
      merge a b = .ofList [⟨"x", .definition 3⟩, ⟨"x", .definition 5⟩,
        ⟨"y", .kind .loopDependent⟩] := by
  intro a b
  obtain ⟨-, -, -, -, -, hself, -, hfold⟩ := merge_joins
  have ha : Normal a := (hself a).1 (by decide +kernel)
  have hb : Normal b := (hself b).1 (by decide +kernel)
  refine ⟨ha, hb, (hfold [b, a] [a]).2.2 a b ?_ ?_, by decide +kernel⟩
  · simp [ha, hb]
  · intro t
    simp only [List.mem_cons, List.not_mem_nil, or_false]
    exact ⟨fun h => h.elim Or.inr id, fun h => Or.inr h⟩

end Descriptor

end ParLoop
