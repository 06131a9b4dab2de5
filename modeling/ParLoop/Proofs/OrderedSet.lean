import Mathlib.Logic.Function.Basic
import ParLoop.OrderedSet

/-!
# Images of finite sets

The image of a set under a function, and how the operations on sets go over to images. An injective
function loses nothing: sets with one image are equal (`map_injective`).
-/

namespace ParLoop.OrderedSet

open Std

variable {α β : Type} [Ord α] [Ord β] [TransOrd β] [LawfulEqOrd β] {f : α → β}

/-- The images of the members of a set. -/
def map (f : α → β) (s : OrderedSet α) : OrderedSet β := ofList (s.toList.map f)

@[simp] theorem mem_map {s : OrderedSet α} {b : β} : b ∈ s.map f ↔ ∃ a ∈ s, f a = b := by
  rw [map, mem_ofList, List.mem_map]
  rfl

theorem mem_map_of_mem {s : OrderedSet α} {a : α} (h : a ∈ s) : f a ∈ s.map f :=
  mem_map.2 ⟨a, h, rfl⟩

theorem mem_map_iff (hf : f.Injective) {s : OrderedSet α} {a : α} : f a ∈ s.map f ↔ a ∈ s := by
  rw [mem_map]
  constructor
  · rintro ⟨b, hb, heq⟩
    exact hf heq ▸ hb
  · exact fun h => ⟨a, h, rfl⟩

theorem contains_map [DecidableEq α] [DecidableEq β] (hf : f.Injective) (s : OrderedSet α) (a : α) :
    (s.map f).contains (f a) = s.contains a := by
  rw [Bool.eq_iff_iff, contains_iff, contains_iff, mem_map_iff hf]

/-- A test of the images is a test of the members. -/
theorem map_filter {p : α → Bool} {q : β → Bool} {s : OrderedSet α} (h : ∀ a ∈ s, q (f a) = p a) :
    (s.filter p).map f = (s.map f).filter q := by
  ext b
  simp only [mem_map, mem_filter]
  constructor
  · rintro ⟨a, ⟨ha, hp⟩, rfl⟩
    exact ⟨⟨a, ha, rfl⟩, (h a ha).trans hp⟩
  · rintro ⟨⟨a, ha, rfl⟩, hq⟩
    exact ⟨a, ⟨ha, (h a ha).symm.trans hq⟩, rfl⟩

theorem map_inter [DecidableEq α] [DecidableEq β] (hf : f.Injective) (s t : OrderedSet α) :
    (s.inter t).map f = (s.map f).inter (t.map f) :=
  map_filter fun a _ => contains_map hf t a

theorem isEmpty_eq_true_iff {s : OrderedSet α} : s.isEmpty = true ↔ ∀ a, a ∉ s := by
  rw [isEmpty, List.isEmpty_iff, List.eq_nil_iff_forall_not_mem]
  rfl

theorem isEmpty_map (s : OrderedSet α) : (s.map f).isEmpty = s.isEmpty := by
  rw [Bool.eq_iff_iff, isEmpty_eq_true_iff, isEmpty_eq_true_iff]
  constructor
  · exact fun h a ha => h (f a) (mem_map_of_mem ha)
  · intro h b hb
    obtain ⟨a, ha, -⟩ := mem_map.1 hb
    exact h a ha

/-- A function that keeps the order keeps the listing. -/
theorem toList_map {s : OrderedSet α}
    (h : s.toList.Pairwise fun a b => compare (f a) (f b) = .lt) :
    (s.map f).toList = s.toList.map f := by
  refine eq_of_mem_iff (s.map f).increasing (List.pairwise_map.2 h) fun b => ?_
  rw [← mem_iff, mem_map, List.mem_map]
  rfl

variable [TransOrd α]

omit [TransOrd β] [LawfulEqOrd β] [Ord β] in
theorem nodup_toList (s : OrderedSet α) : s.toList.Nodup := by
  refine s.increasing.imp fun {a b} h => ?_
  rintro rfl
  simp at h

variable [LawfulEqOrd α]

@[simp] theorem map_insert (s : OrderedSet α) (a : α) :
    (s.insert a).map f = (s.map f).insert (f a) := by
  ext b
  simp only [mem_map, mem_insert]
  constructor
  · rintro ⟨c, rfl | hc, rfl⟩
    · exact Or.inl rfl
    · exact Or.inr ⟨c, hc, rfl⟩
  · rintro (rfl | ⟨c, hc, rfl⟩)
    · exact ⟨a, Or.inl rfl, rfl⟩
    · exact ⟨c, Or.inr hc, rfl⟩

@[simp] theorem map_union (s t : OrderedSet α) : (s.union t).map f = (s.map f).union (t.map f) := by
  ext b
  simp only [mem_map, mem_union]
  constructor
  · rintro ⟨a, ha | ha, rfl⟩
    · exact Or.inl ⟨a, ha, rfl⟩
    · exact Or.inr ⟨a, ha, rfl⟩
  · rintro (⟨a, ha, rfl⟩ | ⟨a, ha, rfl⟩)
    · exact ⟨a, Or.inl ha, rfl⟩
    · exact ⟨a, Or.inr ha, rfl⟩

@[simp] theorem map_ofList (l : List α) : (ofList l).map f = ofList (l.map f) := by
  ext b
  simp

/-- **Sets with one image under an injective function are equal.** -/
theorem map_injective (hf : f.Injective) : (map f).Injective := by
  intro s t h
  ext a
  rw [← mem_map_iff hf, h, mem_map_iff hf]

end ParLoop.OrderedSet
