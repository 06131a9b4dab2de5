import Mathlib.Data.List.Basic
import ParLoop.Expr.Basic

/-!
# Parts of expressions

What the parts of an expression say of the parts of its parts, and what a replacement of variables
by variables does to the occurrences of variables.
-/

namespace ParLoop.Expr

attribute [simp] children

/-- The parts of a part are parts. -/
theorem mem_subterms_of_mem_children {e c t : Expr} (hc : c ∈ e.children) (ht : t ∈ c.subterms) :
    t ∈ e.subterms := by
  rw [subterms_eq]
  exact List.mem_cons_of_mem _ (List.mem_flatMap.2 ⟨c, hc, ht⟩)

theorem self_mem_subterms (e : Expr) : e ∈ e.subterms := by
  rw [subterms_eq]
  exact List.mem_cons_self

/-- What holds of an expression if it holds of its direct parts holds of every expression. -/
theorem induct_children {P : Expr → Prop} (h : ∀ e : Expr, (∀ c ∈ e.children, P c) → P e)
    (e : Expr) : P e := by
  induction e with
  | var x => exact h _ (by simp)
  | access a is ih => exact h _ (by simpa using ih)
  | int n => exact h _ (by simp)
  | double d => exact h _ (by simp)
  | neg e ih => exact h _ (by simpa using ih)
  | binary op l r ihl ihr => exact h _ (by simpa using ⟨ihl, ihr⟩)
  | paren e ih => exact h _ (by simpa using ih)
  | cond c a b ihc iha ihb => exact h _ (by simpa using ⟨ihc, iha, ihb⟩)
  | call f es ih => exact h _ (by simpa using ih)

/-- The parts of a part, at any depth. -/
theorem mem_subterms_trans {e s t : Expr} (hs : s ∈ e.subterms) (ht : t ∈ s.subterms) :
    t ∈ e.subterms := by
  induction e using induct_children with
  | h e ih =>
    rw [subterms_eq] at hs
    rcases List.mem_cons.1 hs with rfl | hs
    · exact ht
    · obtain ⟨c, hc, hs⟩ := List.mem_flatMap.1 hs
      exact mem_subterms_of_mem_children hc (ih c hc hs)

theorem hasCall_of_mem_children {e c : Expr} (h : e.hasCall = false) (hc : c ∈ e.children) :
    c.hasCall = false := by
  simp only [hasCall, List.any_eq_false] at h ⊢
  exact fun t ht => h t (mem_subterms_of_mem_children hc ht)

theorem hasAccess_of_mem_children {e c : Expr} (h : e.hasAccess = false) (hc : c ∈ e.children) :
    c.hasAccess = false := by
  simp only [hasAccess, List.any_eq_false] at h ⊢
  exact fun t ht => h t (mem_subterms_of_mem_children hc ht)

theorem reads_of_mem_children {e c : Expr} {x : String} (hc : c ∈ e.children)
    (h : c.reads x = true) : e.reads x = true := by
  simp only [reads, List.any_eq_true] at h ⊢
  obtain ⟨t, ht, hx⟩ := h
  exact ⟨t, mem_subterms_of_mem_children hc ht, hx⟩

theorem mem_occurrences {e : Expr} {x : String} : x ∈ e.occurrences ↔ .var x ∈ e.subterms := by
  simp only [occurrences, List.mem_filterMap]
  constructor
  · rintro ⟨t, ht, hx⟩
    cases t <;> simp [asVariable?] at hx
    exact hx ▸ ht
  · intro h
    exact ⟨_, h, rfl⟩

theorem mem_occurrences_of_mem_children {e c : Expr} {x : String} (hc : c ∈ e.children)
    (hx : x ∈ c.occurrences) : x ∈ e.occurrences :=
  mem_occurrences.2 (mem_subterms_of_mem_children hc (mem_occurrences.1 hx))

@[simp] theorem occurrences_var (x : String) : (Expr.var x).occurrences = [x] := rfl

/-- What is collected from the parts of an expression comes from itself and from its direct
parts. -/
theorem filterMap_subterms {α : Type} (f : Expr → Option α) (e : Expr) :
    e.subterms.filterMap f =
      (f e).toList ++ e.children.flatMap fun c => c.subterms.filterMap f := by
  rw [subterms_eq, List.filterMap_cons, List.filterMap_flatMap]
  cases f e <;> rfl

/-- The occurrences in an expression that is no variable are those in its direct parts. -/
theorem occurrences_eq {e : Expr} (h : e.asVariable? = none) :
    e.occurrences = e.children.flatMap occurrences := by
  rw [occurrences, filterMap_subterms, h]
  rfl

/-- An expression calls what it calls itself and what its direct parts call. -/
theorem callees_eq (e : Expr) :
    e.callees = e.calledProcedure?.toList ++ e.children.flatMap callees :=
  filterMap_subterms calledProcedure? e

@[simp] theorem occurrences_neg (e : Expr) : (Expr.neg e).occurrences = e.occurrences := by
  rw [occurrences_eq rfl]
  simp

@[simp] theorem occurrences_paren (e : Expr) : (Expr.paren e).occurrences = e.occurrences := by
  rw [occurrences_eq rfl]
  simp

@[simp] theorem occurrences_binary (op : BinaryOp) (l r : Expr) :
    (Expr.binary op l r).occurrences = l.occurrences ++ r.occurrences := by
  rw [occurrences_eq rfl]
  simp

/-! ### Variables for variables -/

/-- A substitution puts variables in the place of variables. -/
def IsRenaming (f : String → Option Expr) : Prop := ∀ x t, f x = some t → ∃ y, t = .var y

theorem children_substitute {f : String → Option Expr} (hf : IsRenaming f) (e : Expr) :
    (e.substitute f).children = e.children.map (substitute f) := by
  cases e with
  | var x =>
    rw [substitute]
    cases ht : f x with
    | none => rfl
    | some t =>
      obtain ⟨y, rfl⟩ := hf x t ht
      rfl
  | access a is => exact substituteList_eq f is
  | call p es => exact substituteList_eq f es
  | int _ | double _ | neg _ | binary _ _ _ | paren _ | cond _ _ _ => rfl

/-- What is collected from an expression and what is collected after variables were replaced
correspond, if they do for every part alone. -/
theorem filterMap_subterms_substitute {α β : Type} {f : String → Option Expr} (hf : IsRenaming f)
    {g : Expr → Option α} {g' : Expr → Option β} {k : β → α}
    (h : ∀ e, g (e.substitute f) = (g' e).map k) (e : Expr) :
    (e.substitute f).subterms.filterMap g = (e.subterms.filterMap g').map k := by
  induction e using induct_children with
  | h e ih =>
    rw [filterMap_subterms, filterMap_subterms, children_substitute hf, h, List.map_append,
      List.flatMap_map, List.map_flatMap, List.flatMap_congr ih]
    cases g' e <;> rfl

/-- The replacement of variables by variables. -/
def relabel (f : String → String) (x : String) : Option Expr := some (.var (f x))

theorem isRenaming_relabel (f : String → String) : IsRenaming (relabel f) := by
  intro x t ht
  cases ht
  exact ⟨f x, rfl⟩

theorem occurrences_substitute (f : String → String) (e : Expr) :
    (e.substitute (relabel f)).occurrences = e.occurrences.map f := by
  refine filterMap_subterms_substitute (isRenaming_relabel f) (fun e => ?_) e
  cases e <;> rfl

end ParLoop.Expr
