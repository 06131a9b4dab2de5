import ParLoop.Instr
import ParLoop.Proofs.Expr.Subterms

/-!
# Replacing variables

What a replacement of variables changes of an expression and of an instruction: it depends on the
variables that occur (`substitute_congr`), and where it puts variables it keeps everything that does
not look at names.
-/

namespace ParLoop

namespace Expr

theorem substitute_congr {f g : String → Option Expr} {e : Expr}
    (h : ∀ x ∈ e.occurrences, (f x).getD (.var x) = (g x).getD (.var x)) :
    e.substitute f = e.substitute g := by
  have hlist : ∀ {es : List Expr}, (∀ t ∈ es, t.substitute f = t.substitute g) →
      substituteList f es = substituteList g es := by
    intro es hes
    rw [substituteList_eq, substituteList_eq]
    exact List.map_congr_left hes
  induction e with
  | var x => exact h x (by simp)
  | int n => rfl
  | double d => rfl
  | access a is ih =>
    have := hlist fun t ht => ih t ht fun x hx => h x (mem_occurrences_of_mem_children ht hx)
    rw [substitute, substitute, this]
  | call p es ih =>
    have := hlist fun t ht => ih t ht fun x hx => h x (mem_occurrences_of_mem_children ht hx)
    rw [substitute, substitute, this]
  | neg e ih =>
    rw [substitute, substitute, ih fun x hx => h x (by simpa using hx)]
  | paren e ih =>
    rw [substitute, substitute, ih fun x hx => h x (by simpa using hx)]
  | binary op l r ihl ihr =>
    rw [substitute, substitute, ihl fun x hx => h x (by simp [hx]),
      ihr fun x hx => h x (by simp [hx])]
  | cond c t f ihc iht ihf =>
    have hpart : ∀ {p : Expr}, p ∈ [c, t, f] → ∀ x ∈ p.occurrences, _ := fun hp x hx =>
      h x (mem_occurrences_of_mem_children hp hx)
    rw [substitute, substitute, ihc (hpart (by simp)), iht (hpart (by simp)),
      ihf (hpart (by simp))]

theorem substitute_none (e : Expr) : e.substitute (fun _ => none) = e := by
  have hlist : ∀ {es : List Expr}, (∀ t ∈ es, t.substitute (fun _ => none) = t) →
      substituteList (fun _ => none) es = es := by
    intro es hes
    rw [substituteList_eq, List.map_congr_left hes, List.map_id']
  induction e with
  | var x => rfl
  | int n => rfl
  | double d => rfl
  | access a is ih => rw [substitute, hlist ih]
  | call p es ih => rw [substitute, hlist ih]
  | neg e ih => rw [substitute, ih]
  | paren e ih => rw [substitute, ih]
  | binary op l r ihl ihr => rw [substitute, ihl, ihr]
  | cond c t f ihc iht ihf => rw [substitute, ihc, iht, ihf]

/-- A variable stays a variable. -/
theorem exists_substitute_var {f : String → Option Expr} (hf : IsRenaming f) (x : String) :
    ∃ y, (Expr.var x).substitute f = .var y := by
  rw [substitute]
  cases hx : f x with
  | none => exact ⟨x, rfl⟩
  | some t =>
    obtain ⟨y, rfl⟩ := hf x t hx
    exact ⟨y, rfl⟩

/-- Whether a value may be reused is not a matter of the names of its variables. -/
theorem isReusable_substitute {f : String → Option Expr} (hf : IsRenaming f) (e : Expr) :
    (e.substitute f).isReusable = e.isReusable := by
  have hany : ∀ {g : Expr → Option String}, (∀ e, g (e.substitute f) = g e) →
      ((e.substitute f).subterms.any fun t => (g t).isSome) =
        e.subterms.any fun t => (g t).isSome := by
    intro g hg
    have hmap : (e.substitute f).subterms.filterMap g = (e.subterms.filterMap g).map id :=
      filterMap_subterms_substitute hf (by simpa using hg) e
    rw [List.map_id] at hmap
    rw [← List.isSome_findSome?, ← List.isSome_findSome?, ← List.head?_filterMap,
      ← List.head?_filterMap, hmap]
  have hcall : (e.substitute f).hasCall = e.hasCall := by
    refine hany fun e => ?_
    cases e with
    | var x =>
      obtain ⟨y, hy⟩ := exists_substitute_var hf x
      rw [hy]
      rfl
    | _ => rfl
  have haccess : (e.substitute f).hasAccess = e.hasAccess := by
    refine hany fun e => ?_
    cases e with
    | var x =>
      obtain ⟨y, hy⟩ := exists_substitute_var hf x
      rw [hy]
      rfl
    | _ => rfl
  have hcomputes : (e.substitute f).isComputation = e.isComputation := by
    cases e with
    | var x =>
      obtain ⟨y, hy⟩ := exists_substitute_var hf x
      rw [hy]
      rfl
    | _ => rfl
  rw [isReusable, isReusable, hcall, haccess, hcomputes]

end Expr

namespace Instr

/-- The occurrences of variables that an instruction reads, in evaluation order. -/
def occurrences (i : Instr) : List String := i.expressions.flatMap Expr.occurrences

theorem substitute_congr {f g : String → Option Expr} {i : Instr}
    (h : ∀ x ∈ i.occurrences, (f x).getD (.var x) = (g x).getD (.var x)) :
    i.substitute f = i.substitute g := by
  have hparts : ∀ e ∈ i.expressions, e.substitute f = e.substitute g := fun e he =>
    Expr.substitute_congr fun x hx => h x (List.mem_flatMap.2 ⟨e, he, hx⟩)
  cases i with
  | assign target value =>
    cases target <;> simp only [expressions, List.mem_cons, List.not_mem_nil, or_false,
      forall_eq_or_imp, forall_eq] at hparts <;> simp only [substitute, hparts]
  | branch c l =>
    simp only [expressions, List.mem_singleton, forall_eq] at hparts
    simp only [substitute, hparts]
  | call p es =>
    have hes : ∀ e ∈ es, e.substitute f = e.substitute g := hparts
    rw [substitute, substitute, List.map_congr_left hes]
  | declare _ | label _ | jump _ => rfl

theorem substitute_none (i : Instr) : i.substitute (fun _ => none) = i := by
  cases i with
  | assign target value => cases target <;> simp only [substitute, Expr.substitute_none]
  | call p es =>
    rw [substitute, List.map_congr_left fun e _ => Expr.substitute_none e, List.map_id']
  | branch c l => rw [substitute, Expr.substitute_none]
  | declare _ | label _ | jump _ => rfl

theorem expressions_substitute (f : String → Option Expr) (i : Instr) :
    (i.substitute f).expressions = i.expressions.map (Expr.substitute f) := by
  cases i with
  | assign target value => cases target <;> simp [substitute, expressions, Expr.substitute]
  | _ => rfl

theorem occurrences_substitute (f : String → String) (i : Instr) :
    (i.substitute (Expr.relabel f)).occurrences = i.occurrences.map f := by
  rw [occurrences, expressions_substitute, List.flatMap_map, occurrences, List.map_flatMap]
  exact List.flatMap_congr fun e _ => Expr.occurrences_substitute f e

end Instr

end ParLoop
