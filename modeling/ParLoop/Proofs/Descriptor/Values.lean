import ParLoop.Proofs.Descriptor.Evaluate
import ParLoop.Proofs.Flow.Dependence
import ParLoop.Proofs.Kind.Holds

/-!
# What is found for an expression and its value

* `evaluate_relates`: what is found for an expression is true of its values in an earlier and a
  later iteration, if this is so for the variables.
* `evaluate_holds_iff`: what is found for the parts of an expression is true of their values if and
  only if no sign is lost.
-/

namespace ParLoop.Descriptor

open Kinds

variable {d : Division} {facts : OrderedSet Descriptor} {ρ σ : String → Int} {e : Expr}

/-! ### Two iterations -/

/-- **A value found to depend on the loop is different in different iterations.** What is found for
an expression is true of its values in an earlier and a later iteration, if what is known of the
variables is true of theirs. -/
theorem evaluate_relates (hsigns : KeepsSigns facts e)
    (hvars : ∀ x ∈ e.occurrences, (kindsOf facts x).WellFormed ∧
      (kindsOf facts x).Relates (ρ x) (σ x)) :
    (evaluate facts e).WellFormed ∧ ∀ m n, Denotes d ρ e m → Denotes d σ e n →
      (evaluate facts e).Relates m n ∧ (isLoopDependent facts e = true → m ≠ n) := by
  have hdescribed : ∀ x ∈ e.occurrences, Described facts 1 x (ρ x) (σ x) := fun x hx =>
    ⟨(hvars x hx).1, (relates_iff_consistent (hvars x hx).1).1 (hvars x hx).2⟩
  obtain ⟨hw, hc⟩ := evaluate_denotes (d := d) (Or.inr rfl) hsigns hdescribed
  refine ⟨hw, fun m n hm hn => ⟨(relates_iff_consistent hw).2 (hc m n hm hn), fun hdep => ?_⟩⟩
  exact (hc m n hm hn).dependent (OrderedSet.contains_iff.1 hdep)

/-- The difference of a negative value that falls and a positive literal. -/
def fallingIndex : Expr :=
  .binary .subtract (.neg (.paren (.binary .multiply (.var "i") (.int 3)))) (.int 2)

theorem keepsSigns_fallingIndex : KeepsSigns (Flow.counterFacts "i" 0) fallingIndex := by
  refine ⟨fun t ht => ?_, fun l r ht => ?_⟩ <;>
    simp only [fallingIndex, Expr.subterms, List.mem_cons, List.mem_append, reduceCtorEq,
      List.not_mem_nil, Expr.neg.injEq, Expr.binary.injEq, or_false, false_or, true_and,
      false_and] at ht
  · subst ht
    decide +kernel
  · obtain ⟨rfl, rfl⟩ := ht
    decide +kernel

/-- The values of the index for the counters 1 and 4 are -5 and -14. -/
theorem evaluate_relates_fallingIndex :
    (evaluate (Flow.counterFacts "i" 0) fallingIndex).Relates (-5) (-14) ∧ (-5 : Int) ≠ -14 := by
  have hkinds : kindsOf (Flow.counterFacts "i" 0) "i" =
      .ofList [.positive, .notZero, .loopDependent] := by decide +kernel
  have hvars : ∀ x ∈ fallingIndex.occurrences, (kindsOf (Flow.counterFacts "i" 0) x).WellFormed ∧
      (kindsOf (Flow.counterFacts "i" 0) x).Relates 1 4 := by
    intro x hx
    obtain rfl : "i" = x := by
      simpa [fallingIndex, Expr.occurrences, Expr.subterms, Expr.asVariable?] using hx
    rw [hkinds]
    refine ⟨⟨⟨?_, ?_⟩, ?_⟩, ⟨⟨?_, ?_, ?_, ?_⟩, ?_⟩, ⟨⟨?_, ?_, ?_, ?_⟩, ?_⟩, ?_, ?_, ?_, ?_⟩ <;> simp
  obtain ⟨-, h⟩ := evaluate_relates (d := .truncated) (ρ := fun _ => 1) (σ := fun _ => 4)
    keepsSigns_fallingIndex hvars
  have hvalue : ∀ c, Denotes .truncated (fun _ => c) fallingIndex (-(c * 3) - 2) := fun c =>
    .subtract (.neg (.paren (.multiply (.var "i") (.int 3)))) (.int 2)
  obtain ⟨hrel, hne⟩ := h _ _ (hvalue 1) (hvalue 4)
  exact ⟨hrel, hne (by decide +kernel)⟩

/-! ### One value -/

/-- Every expression has a number. -/
theorem exists_denotes (d : Division) (ρ : String → Int) (e : Expr) : ∃ n, Denotes d ρ e n := by
  induction e with
  | var x => exact ⟨_, .var x⟩
  | access a is => exact ⟨0, .access a is 0⟩
  | int n => exact ⟨n, .int n⟩
  | double x => exact ⟨0, .double x 0⟩
  | neg e ih => exact ih.elim fun _ h => ⟨_, .neg h⟩
  | paren e ih => exact ih.elim fun _ h => ⟨_, .paren h⟩
  | cond c t f => exact ⟨0, .cond c t f 0⟩
  | call p es => exact ⟨0, .call p es 0⟩
  | binary op l r ihl ihr =>
    obtain ⟨m, hm⟩ := ihl
    obtain ⟨n, hn⟩ := ihr
    cases op with
    | add => exact ⟨_, .add hm hn⟩
    | subtract => exact ⟨_, .subtract hm hn⟩
    | multiply => exact ⟨_, .multiply hm hn⟩
    | divide => exact ⟨_, .divide hm hn⟩
    | modulo => exact ⟨_, .modulo hm hn⟩
    | generic s => exact ⟨0, .generic s l r 0⟩
    | compare c => exact ⟨0, .compare c l r 0⟩

/-- What is found for an expression is true of its value, if no sign is lost. -/
theorem evaluate_holds {n : Int} (h : Denotes d ρ e n) (hsigns : KeepsSigns facts e)
    (hvars : ∀ x ∈ e.occurrences, (kindsOf facts x).Holds (ρ x)) : (evaluate facts e).Holds n := by
  induction h with
  | var x => exact hvars x (by simp)
  | int n => exact holds_ofInt n
  | @neg e n _ ih =>
    rw [Expr.occurrences_neg] at hvars
    exact holds_negate (ih hsigns.of_neg hvars) (hsigns.neg e (Expr.self_mem_subterms _))
  | paren _ ih =>
    rw [Expr.occurrences_paren] at hvars
    exact ih hsigns.of_paren hvars
  | add _ _ ihl ihr =>
    rw [Expr.occurrences_binary, List.forall_mem_append] at hvars
    have hl := ihl hsigns.left hvars.1
    have hr := ihr hsigns.right hvars.2
    exact holds_add hl hr.toSigns fun _ => hr.one
  | subtract _ _ ihl ihr =>
    rw [Expr.occurrences_binary, List.forall_mem_append] at hvars
    have hl := ihl hsigns.left hvars.1
    have hr := ihr hsigns.right hvars.2
    rw [evaluate_subtract, Int.sub_eq_add_neg]
    exact holds_add hl (signs_negate hr.toSigns) fun h0 h1 =>
      absurd h1 (hsigns.one_not_mem_negate h0)
  | multiply _ _ ihl ihr =>
    rw [Expr.occurrences_binary, List.forall_mem_append] at hvars
    have hl := ihl hsigns.left hvars.1
    have hr := ihr hsigns.right hvars.2
    exact holds_multiply hl hr
  | divide _ _ ihl ihr =>
    rw [Expr.occurrences_binary, List.forall_mem_append] at hvars
    have hl := ihl hsigns.left hvars.1
    have hr := ihr hsigns.right hvars.2
    exact holds_divide d hl hr
  | modulo _ _ ihl ihr =>
    rw [Expr.occurrences_binary, List.forall_mem_append] at hvars
    have hl := ihl hsigns.left hvars.1
    have hr := ihr hsigns.right hvars.2
    exact holds_modulo d hl hr
  | _ => exact holds_empty

/-- What is found of the size of a value is true in every case. -/
theorem evaluate_sized {n : Int} (hd : d.IsExact) (h : Denotes d ρ e n)
    (hvars : ∀ x ∈ e.occurrences, (kindsOf facts x).Holds (ρ x)) : (evaluate facts e).Sized n := by
  induction h with
  | var x => exact (hvars x (by simp)).sized
  | int n => exact (holds_ofInt n).sized
  | neg _ ih =>
    rw [Expr.occurrences_neg] at hvars
    exact sized_negate (ih hvars)
  | paren _ ih =>
    rw [Expr.occurrences_paren] at hvars
    exact ih hvars
  | add _ _ ihl ihr =>
    rw [Expr.occurrences_binary, List.forall_mem_append] at hvars
    exact sized_add (ihl hvars.1) (ihr hvars.2)
  | subtract _ _ ihl ihr =>
    rw [Expr.occurrences_binary, List.forall_mem_append] at hvars
    rw [evaluate_subtract, Int.sub_eq_add_neg]
    exact sized_add (ihl hvars.1) (sized_negate (ihr hvars.2))
  | multiply _ _ ihl ihr =>
    rw [Expr.occurrences_binary, List.forall_mem_append] at hvars
    exact sized_multiply (ihl hvars.1) (ihr hvars.2)
  | divide _ _ ihl ihr =>
    rw [Expr.occurrences_binary, List.forall_mem_append] at hvars
    exact sized_divide hd (ihl hvars.1) (ihr hvars.2)
  | modulo _ _ ihl ihr =>
    rw [Expr.occurrences_binary, List.forall_mem_append] at hvars
    exact sized_modulo hd (ihl hvars.1) (ihr hvars.2)
  | _ => exact holds_empty.sized

/-- **What is found for the parts of an expression is true of their values if and only if no sign is
lost**, given that what is known of the variables is true of theirs. That a value is zero is true in
every case. -/
theorem evaluate_holds_iff (hd : d.IsExact)
    (hvars : ∀ x ∈ e.occurrences, (kindsOf facts x).Holds (ρ x)) :
    ((∀ t ∈ e.subterms, ∀ n, Denotes d ρ t n → (evaluate facts t).Holds n) ↔ KeepsSigns facts e) ∧
      ∀ n, Denotes d ρ e n → .zero ∈ evaluate facts e → n = 0 := by
  refine ⟨⟨fun h => ⟨fun t ht h1 => ?_, fun l r ht hlr => ?_⟩, fun hsigns t ht n hn => ?_⟩,
    fun n hn => (evaluate_sized hd hn hvars).zero⟩
  · -- The operand would be 1 and its negation, found to be one too, would be -1.
    have hoperand : t ∈ e.subterms := Expr.mem_subterms_trans ht
      (Expr.mem_subterms_of_mem_children (by simp) t.self_mem_subterms)
    obtain ⟨n, hn⟩ := exists_denotes d ρ t
    have hone : n = 1 := (h t hoperand n hn).one h1
    have hneg : -n = 1 := (h (.neg t) ht _ (.neg hn)).one (mem_negate.2 h1)
    omega
  · obtain ⟨h0, h1⟩ := hlr
    have hpart : ∀ c ∈ [l, r], c ∈ e.subterms := fun c hc => Expr.mem_subterms_trans ht
      (Expr.mem_subterms_of_mem_children (by simpa using hc) c.self_mem_subterms)
    obtain ⟨m, hm⟩ := exists_denotes d ρ l
    obtain ⟨n, hn⟩ := exists_denotes d ρ r
    have hzero : m = 0 := (h l (hpart l (by simp)) m hm).zero h0
    have hone : n = 1 := (h r (hpart r (by simp)) n hn).one h1
    have hfound : .one ∈ evaluate facts (.binary .subtract l r) := by
      rw [evaluate_subtract, Kinds.add_of_zero_left h0]
      exact mem_negate.2 h1
    have hdiff : m - n = 1 := (h _ ht _ (.subtract hm hn)).one hfound
    omega
  · exact evaluate_holds hn (hsigns.of_mem_subterms ht) fun x hx => hvars x
      (Expr.mem_occurrences.2 (Expr.mem_subterms_trans ht (Expr.mem_occurrences.1 hx)))

/-- What is known of a variable that has been assigned 1. -/
def assignedOne : OrderedSet Descriptor := Flow.redefine ∅ "x" 2 (.ofInt 1)

theorem holds_assignedOne (x : String) : (kindsOf assignedOne x).Holds 1 := by
  by_cases hx : x = "x"
  · rw [assignedOne, Flow.kindsOf_redefine, if_pos hx]
    exact holds_ofInt 1
  · rw [assignedOne, Flow.kindsOf_redefine, if_neg hx, kindsOf_empty]
    exact holds_empty

/-- The product of a variable that has been assigned 1 and the difference of 0 and 2. -/
def signedProduct : Expr :=
  .binary .multiply (.var "x") (.paren (.binary .subtract (.int 0) (.int 2)))

theorem keepsSigns_signedProduct : KeepsSigns assignedOne signedProduct := by
  refine ⟨fun t ht => ?_, fun l r ht => ?_⟩ <;>
    simp only [signedProduct, Expr.subterms, List.mem_cons, List.mem_append, reduceCtorEq,
      List.not_mem_nil, Expr.binary.injEq, or_false, false_or, true_and, false_and] at ht
  obtain ⟨rfl, rfl⟩ := ht
  decide +kernel

theorem evaluate_holds_signedProduct :
    evaluate assignedOne signedProduct = .ofList [.negative, .notZero, .loopIndependent] ∧
      (evaluate assignedOne signedProduct).Holds (-2) := by
  have hvalue : Denotes .truncated (fun _ => 1) signedProduct (1 * (0 - 2)) :=
    .multiply (.var "x") (.paren (.subtract (.int 0) (.int 2)))
  refine ⟨by decide +kernel, ?_⟩
  exact ((evaluate_holds_iff Division.isExact_truncated fun x _ => holds_assignedOne x).1.2
    keepsSigns_signedProduct) signedProduct (Expr.self_mem_subterms _) _ hvalue

/-- The negation of a variable that has been assigned 1 is found to be one. -/
theorem evaluate_negatedOne_not_holds :
    (∀ x ∈ (Expr.neg (.var "x")).occurrences, (kindsOf assignedOne x).Holds 1) ∧
      Denotes .truncated (fun _ => 1) (.neg (.var "x")) (-1) ∧
      ¬ (evaluate assignedOne (.neg (.var "x"))).Holds (-1) := by
  refine ⟨fun x _ => holds_assignedOne x, .neg (.var "x"), fun h => ?_⟩
  have hone : (-1 : Int) = 1 := h.one (by decide +kernel)
  omega

end ParLoop.Descriptor
