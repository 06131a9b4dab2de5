import ParLoop.Proofs.Expr.Rename
import ParLoop.Proofs.OrderedSet

/-!
# One-to-one names

An expression whose names are replaced one-to-one, variables and arrays alike, is found again in its
renamed form (`Expr.rename_injective`). What is asked of it is answered in the new names, and a
replacement of variables can be made before or after (`Expr.rename_substitute`).
-/

namespace ParLoop

variable {σ : String → String}

namespace Expr

/-- What is collected from the parts of a renamed expression. -/
theorem filterMap_subterms_rename {α β : Type} {r : Renaming} {f : Expr → Option α}
    {f' : Expr → Option β} {k : β → α} (h : ∀ e, f (e.rename r) = (f' e).map k) (e : Expr) :
    (e.rename r).subterms.filterMap f = (e.subterms.filterMap f').map k := by
  rw [subterms_rename, List.filterMap_map, List.map_filterMap]
  exact List.filterMap_congr fun t _ => h t

theorem asVariable?_rename (r : Renaming) (e : Expr) :
    (e.rename r).asVariable? = e.asVariable?.map r.var := by
  cases e <;> rfl

theorem accessedArray?_rename (r : Renaming) (e : Expr) :
    (e.rename r).accessedArray? = e.accessedArray?.map r.array := by
  cases e <;> rfl

theorem mentioned?_rename (σ : String → String) (e : Expr) :
    (e.rename ⟨σ, σ⟩).mentioned? = e.mentioned?.map σ := by
  cases e <;> rfl

theorem isComputation_rename (r : Renaming) (e : Expr) :
    (e.rename r).isComputation = e.isComputation := by
  cases e <;> rfl

theorem occurrences_rename (r : Renaming) (e : Expr) :
    (e.rename r).occurrences = e.occurrences.map r.var :=
  filterMap_subterms_rename (asVariable?_rename r) e

theorem names_rename (σ : String → String) (e : Expr) :
    (e.rename ⟨σ, σ⟩).names = e.names.map σ := by
  rw [names, names, OrderedSet.map_ofList, filterMap_subterms_rename (mentioned?_rename σ)]

theorem hasCall_rename (r : Renaming) (e : Expr) : (e.rename r).hasCall = e.hasCall := by
  rw [hasCall, hasCall, subterms_rename, List.any_map]
  exact congrArg _ (funext fun t => congrArg Option.isSome (calledProcedure?_rename r t))

theorem isSome_accessedArray?_rename (r : Renaming) (e : Expr) :
    (e.rename r).accessedArray?.isSome = e.accessedArray?.isSome := by
  rw [accessedArray?_rename, Option.isSome_map]

theorem hasAccess_rename (r : Renaming) (e : Expr) : (e.rename r).hasAccess = e.hasAccess := by
  rw [hasAccess, hasAccess, subterms_rename, List.any_map]
  exact congrArg _ (funext fun t => isSome_accessedArray?_rename r t)

theorem accesses_rename (r : Renaming) (e : Expr) :
    (e.rename r).accesses = e.accesses.map (rename r) := by
  rw [accesses, accesses, subterms_rename, List.filter_map]
  exact congrArg _ (congrArg (List.filter · _) (funext fun t => isSome_accessedArray?_rename r t))

theorem isReusable_rename (r : Renaming) (e : Expr) : (e.rename r).isReusable = e.isReusable := by
  rw [isReusable, isReusable, isComputation_rename, hasCall_rename, hasAccess_rename]

theorem reads_rename (hσ : σ.Injective) (e : Expr) (x : String) :
    (e.rename ⟨σ, σ⟩).reads (σ x) = e.reads x := by
  rw [Bool.eq_iff_iff, ← mem_names, ← mem_names, names_rename, OrderedSet.mem_map_iff hσ]

/-- **A renamed expression is found again**, if no two names become one. -/
theorem rename_injective {r : Renaming} (hvar : r.var.Injective) (harray : r.array.Injective) :
    (rename r).Injective := by
  have hlist : ∀ {es es' : List Expr}, (∀ e ∈ es, ∀ t, e.rename r = t.rename r → e = t) →
      renameList r es = renameList r es' → es = es' := by
    intro es
    induction es with
    | nil =>
      intro es' _ h
      cases es' with
      | nil => rfl
      | cons t es' => cases h
    | cons e es ih =>
      intro es' hes h
      cases es' with
      | nil => cases h
      | cons t es' =>
        obtain ⟨he, hrest⟩ := List.cons.inj h
        rw [hes e (by simp) t he, ih (fun e he => hes e (by simp [he])) hrest]
  intro e
  induction e with
  | var x =>
    intro t h
    cases t <;> simp only [rename, reduceCtorEq, var.injEq] at h
    rw [hvar h]
  | access a is ih =>
    intro t h
    cases t <;> simp only [rename, reduceCtorEq, access.injEq] at h
    rw [harray h.1, hlist (fun e he _ heq => ih e he heq) h.2]
  | int v =>
    intro t h
    cases t <;> simp only [rename, reduceCtorEq] at h
    exact h
  | double d =>
    intro t h
    cases t <;> simp only [rename, reduceCtorEq] at h
    exact h
  | neg e ih =>
    intro t h
    cases t <;> simp only [rename, reduceCtorEq, neg.injEq] at h
    rw [ih h]
  | binary op l r ihl ihr =>
    intro t h
    cases t <;> simp only [rename, reduceCtorEq, binary.injEq] at h
    rw [h.1, ihl h.2.1, ihr h.2.2]
  | paren e ih =>
    intro t h
    cases t <;> simp only [rename, reduceCtorEq, paren.injEq] at h
    rw [ih h]
  | cond c t f ihc iht ihf =>
    intro t h
    cases t <;> simp only [rename, reduceCtorEq, cond.injEq] at h
    rw [ihc h.1, iht h.2.1, ihf h.2.2]
  | call f es ih =>
    intro t h
    cases t <;> simp only [rename, reduceCtorEq, call.injEq] at h
    rw [h.1, hlist (fun e he _ heq => ih e he heq) h.2]

/-- A replacement of variables before or after other names are given. -/
theorem rename_substitute {r : Renaming} {f f' : String → Option Expr}
    (h : ∀ x, f' (r.var x) = (f x).map (rename r)) (e : Expr) :
    (e.substitute f).rename r = (e.rename r).substitute f' := by
  have hlist : ∀ {es : List Expr},
      (∀ e ∈ es, (e.substitute f).rename r = (e.rename r).substitute f') →
        renameList r (substituteList f es) = substituteList f' (renameList r es) := by
    intro es hes
    rw [renameList_eq, substituteList_eq, substituteList_eq, renameList_eq, List.map_map,
      List.map_map]
    exact List.map_congr_left hes
  induction e with
  | var x =>
    rw [substitute, rename, substitute, h]
    cases f x <;> rfl
  | access a is ih => rw [substitute, rename, rename, substitute, hlist ih]
  | int v => rfl
  | double d => rfl
  | neg e ih => rw [substitute, rename, rename, substitute, ih]
  | binary op l t ihl iht => rw [substitute, rename, rename, substitute, ihl, iht]
  | paren e ih => rw [substitute, rename, rename, substitute, ih]
  | cond c t e ihc iht ihe => rw [substitute, rename, rename, substitute, ihc, iht, ihe]
  | call p es ih => rw [substitute, rename, rename, substitute, hlist ih]

end Expr

namespace Instr

theorem hasCall_rename (r : Renaming) (i : Instr) : (i.rename r).hasCall = i.hasCall := by
  have hany : ((i.rename r).expressions.any Expr.hasCall) = i.expressions.any Expr.hasCall := by
    rw [expressions_rename, List.any_map]
    exact congrArg _ (funext (Expr.hasCall_rename r))
  cases i with
  | call p es => rfl
  | _ => exact hany

theorem isSome_writtenArray?_rename (r : Renaming) (i : Instr) :
    (i.rename r).writtenArray?.isSome = i.writtenArray?.isSome := by
  cases i with
  | assign target value => cases target <;> rfl
  | _ => rfl

theorem rename_injective {r : Renaming} (hvar : r.var.Injective) (harray : r.array.Injective) :
    (rename r).Injective := by
  have hexpr := Expr.rename_injective hvar harray
  intro i j h
  cases i <;> cases j <;>
    simp only [rename, reduceCtorEq, assign.injEq, declare.injEq, label.injEq, jump.injEq,
      branch.injEq, call.injEq] at h ⊢
  · exact ⟨hexpr h.1, hexpr h.2⟩
  · exact hvar h
  · exact h
  · exact h
  · exact ⟨hexpr h.1, h.2⟩
  · exact ⟨h.1, List.map_injective_iff.2 hexpr h.2⟩

theorem rename_substitute {r : Renaming} {f f' : String → Option Expr}
    (h : ∀ x, f' (r.var x) = (f x).map (Expr.rename r)) (i : Instr) :
    (i.substitute f).rename r = (i.rename r).substitute f' := by
  have hexpr := Expr.rename_substitute h
  cases i with
  | assign target value =>
    cases target with
    | access a is =>
      have htarget := hexpr (.access a is)
      rw [Expr.rename] at htarget
      rw [substitute, rename, rename, Expr.rename, substitute, htarget, hexpr]
    | _ => simp only [substitute, rename, Expr.rename, hexpr]
  | branch c l => simp only [substitute, rename, hexpr]
  | call p es =>
    rw [substitute, rename, rename, substitute, List.map_map, List.map_map]
    exact congrArg _ (List.map_congr_left fun e _ => hexpr e)
  | _ => rfl

end Instr

end ParLoop
