import ParLoop.Expr.Basic

/-!
# The order of expressions

Expressions are ordered by their prefix codes: the kind of the expression comes first, then its
fields from left to right; a list that ends comes before one that goes on. A code determines its
expression (`Expr.code_injective`), so the order is total and two expressions are equal exactly when
they compare as equal.
-/

namespace ParLoop

open Std

/-- The code of a name: its characters, closed by 0. -/
def nameCode (s : String) : List Int := s.toList.map (fun c => (c.toNat : Int) + 1) ++ [0]

/-- The place of a comparison in the order of comparisons. -/
def Comparison.rank : Comparison → Int
  | .eq => 0
  | .ne => 1
  | .lt => 2
  | .le => 3
  | .gt => 4
  | .ge => 5

/-- The code of an operator. -/
def BinaryOp.code : BinaryOp → List Int
  | .add => [0]
  | .subtract => [1]
  | .multiply => [2]
  | .divide => [3]
  | .modulo => [4]
  | .generic s => 5 :: nameCode s
  | .compare c => [6, c.rank]

namespace Expr

mutual

/-- The prefix code of an expression. -/
def code : Expr → List Int
  | .var x => 0 :: nameCode x
  | .access a is => 1 :: (nameCode a ++ codeList is)
  | .int v => [2, v]
  | .double d => [3, if d.negative then 1 else 0, d.magnitude]
  | .neg e => 4 :: code e
  | .binary op l r => 5 :: (op.code ++ (code l ++ code r))
  | .paren e => 6 :: code e
  | .cond c t f => 7 :: (code c ++ (code t ++ code f))
  | .call p es => 8 :: (nameCode p ++ codeList es)

/-- The code of a list: 1 before each expression, 0 at the end. -/
def codeList : List Expr → List Int
  | [] => [0]
  | e :: es => 1 :: (code e ++ codeList es)

end

end Expr

/-- Of two codes of names that begin one list, both the names and the rests agree. -/
theorem nameCode_append_inj {s t : String} {u v : List Int}
    (h : nameCode s ++ u = nameCode t ++ v) : s = t ∧ u = v := by
  suffices key : ∀ {cs ds : List Char},
      (cs.map (fun c => (c.toNat : Int) + 1) ++ [0]) ++ u =
        (ds.map (fun c => (c.toNat : Int) + 1) ++ [0]) ++ v → cs = ds ∧ u = v by
    obtain ⟨hl, hr⟩ := key h
    exact ⟨String.toList_inj.1 hl, hr⟩
  intro cs
  induction cs with
  | nil =>
    intro ds h
    cases ds with
    | nil => exact ⟨rfl, by simpa using h⟩
    | cons d ds =>
      simp at h
      omega
  | cons c cs ih =>
    intro ds h
    cases ds with
    | nil =>
      simp at h
      omega
    | cons d ds =>
      simp only [List.map_cons, List.cons_append, List.cons.injEq] at h
      obtain ⟨hl, hr⟩ := ih h.2
      have hcd : c.toNat = d.toNat := by omega
      exact ⟨by rw [hl, Char.toNat_inj.1 hcd], hr⟩

theorem Comparison.rank_inj {a b : Comparison} (h : a.rank = b.rank) : a = b := by
  cases a <;> cases b <;> simp [rank] at h ⊢

theorem BinaryOp.code_append_inj {a b : BinaryOp} {u v : List Int}
    (h : a.code ++ u = b.code ++ v) : a = b ∧ u = v := by
  cases a <;> cases b <;> simp [BinaryOp.code] at h ⊢
  case generic.generic => exact nameCode_append_inj h
  case compare.compare => exact ⟨Comparison.rank_inj h.1, h.2⟩
  all_goals exact h

namespace Expr

theorem codeList_append_inj {es fs : List Expr} {u v : List Int}
    (ih : ∀ e ∈ es, ∀ (f : Expr) (u v : List Int), e.code ++ u = f.code ++ v → e = f ∧ u = v)
    (h : codeList es ++ u = codeList fs ++ v) : es = fs ∧ u = v := by
  induction es generalizing fs with
  | nil => cases fs <;> simp [codeList] at h ⊢; exact h
  | cons e es ihes =>
    cases fs with
    | nil => simp [codeList] at h
    | cons f fs =>
      simp only [codeList, List.cons_append, List.append_assoc, List.cons.injEq, true_and] at h
      obtain ⟨he, hrest⟩ := ih e (by simp) f _ _ h
      obtain ⟨hes, huv⟩ := ihes (fun e' he' => ih e' (List.mem_cons_of_mem _ he')) hrest
      exact ⟨by rw [he, hes], huv⟩

/-- Of two codes that begin one list, both the expressions and the rests agree. -/
theorem code_append_inj (e f : Expr) (u v : List Int) (h : e.code ++ u = f.code ++ v) :
    e = f ∧ u = v := by
  induction e generalizing f u v with
  | var x =>
    cases f <;> simp [code] at h
    simpa using nameCode_append_inj h
  | access a is ih =>
    cases f <;> simp [code] at h
    obtain ⟨ha, hrest⟩ := nameCode_append_inj h
    obtain ⟨his, huv⟩ := codeList_append_inj ih hrest
    exact ⟨by rw [ha, his], huv⟩
  | int w =>
    cases f <;> simp [code] at h
    exact ⟨by rw [h.1], h.2⟩
  | double d =>
    cases f <;> simp [code] at h
    rename_i d'
    obtain ⟨hs, hm, huv⟩ := h
    refine ⟨congrArg _ ?_, huv⟩
    have hs : d.negative = d'.negative := by
      cases hd : d.negative <;> cases hd' : d'.negative <;> simp_all
    have hm : d.magnitude = d'.magnitude := by omega
    cases d
    cases d'
    cases hs
    cases hm
    rfl
  | neg e ih =>
    cases f <;> simp [code] at h
    obtain ⟨he, huv⟩ := ih _ _ _ h
    exact ⟨by rw [he], huv⟩
  | binary op l r ihl ihr =>
    cases f <;> simp [code] at h
    obtain ⟨hop, h⟩ := BinaryOp.code_append_inj h
    obtain ⟨hl, h⟩ := ihl _ _ _ h
    obtain ⟨hr, huv⟩ := ihr _ _ _ h
    exact ⟨by rw [hop, hl, hr], huv⟩
  | paren e ih =>
    cases f <;> simp [code] at h
    obtain ⟨he, huv⟩ := ih _ _ _ h
    exact ⟨by rw [he], huv⟩
  | cond c t g ihc iht ihg =>
    cases f <;> simp [code] at h
    obtain ⟨hc, h⟩ := ihc _ _ _ h
    obtain ⟨ht, h⟩ := iht _ _ _ h
    obtain ⟨hg, huv⟩ := ihg _ _ _ h
    exact ⟨by rw [hc, ht, hg], huv⟩
  | call p es ih =>
    cases f <;> simp [code] at h
    obtain ⟨hp, hrest⟩ := nameCode_append_inj h
    obtain ⟨hes, huv⟩ := codeList_append_inj ih hrest
    exact ⟨by rw [hp, hes], huv⟩

/-- A code determines its expression. -/
theorem code_injective {e f : Expr} (h : e.code = f.code) : e = f :=
  (code_append_inj e f [] [] (by simpa using h)).1

instance : DecidableEq Expr := fun e f =>
  decidable_of_iff (e.code = f.code) ⟨code_injective, congrArg code⟩

instance : Ord Expr := ⟨compareOn code⟩

instance : TransOrd Expr := inferInstanceAs (TransCmp (compareOn code))

instance : LawfulEqOrd Expr where
  compare_self {e} := by simp
  eq_of_compare {e f} h := by
    have h : compare e.code f.code = .eq := h
    exact code_injective (LawfulEqCmp.eq_of_compare h)

/-- Expressions in increasing order; equal ones keep their places. -/
def sort (es : List Expr) : List Expr := es.mergeSort fun e f => (compare e f).isLE

end Expr

end ParLoop
