import ParLoop.Proofs.Flow.Dependence
import ParLoop.Proofs.Kind.Consistent

/-!
# What goes with zero

A set of kinds that holds zero may hold loop independence besides, as that of the literal does, but
nothing else (`OfZero`). The operators keep this even of all the sets together that they come to
(`ZeroLike`), and so does the evaluation of an expression (`zeroLike_yields`): if an expression is
ever found to be zero, then never anything that speaks against it.
-/

namespace ParLoop

namespace Kinds

variable {l r s : Kinds}

/-- A set says nothing but what is known of the literal `0`. -/
def OfZero (s : Kinds) : Prop := ∀ k ∈ s, k ∈ ofInt 0

theorem mem_ofInt_zero {k : Kind} : k ∈ ofInt 0 ↔ k = .zero ∨ k = .loopIndependent := by
  cases k <;> decide

theorem zero_mem_ofInt {v : Int} : .zero ∈ ofInt v ↔ v = 0 := by simp [ofInt]

/-- Zero stands alone or as it does for the literal. -/
theorem OfZero.eq_or_eq (h : s.OfZero) (hzero : .zero ∈ s) : s = .ofList [.zero] ∨ s = ofInt 0 := by
  by_cases hsteady : .loopIndependent ∈ s
  · right
    ext k
    refine ⟨h k, fun hk => ?_⟩
    obtain rfl | rfl := mem_ofInt_zero.1 hk
    · exact hzero
    · exact hsteady
  · left
    ext k
    rw [OrderedSet.mem_ofList, List.mem_singleton]
    constructor
    · intro hk
      exact (mem_ofInt_zero.1 (h k hk)).resolve_right fun hk' => hsteady (hk' ▸ hk)
    · rintro rfl
      exact hzero

/-! ### Where operators find zero -/

theorem zero_mem_add : .zero ∈ l.add r ↔ .zero ∈ l ∧ .zero ∈ r := by
  by_cases h0 : .zero ∈ l
  · simp [add_of_zero_left h0, h0]
  by_cases h0' : .zero ∈ r
  · simp [add_of_zero_right h0 h0', h0]
  · simp [mem_add h0 h0', h0]

theorem zero_mem_of_multiply (h : .zero ∈ l.multiply r) : .zero ∈ l ∨ .zero ∈ r := by
  by_cases h0 : .zero ∈ l ∨ .zero ∈ r
  · exact h0
  have hl : .zero ∉ l := fun hl => h0 (Or.inl hl)
  have hr : .zero ∉ r := fun hr => h0 (Or.inr hr)
  by_cases h1 : .one ∈ l
  · rw [multiply_of_one_left h0 h1] at h
    exact absurd h hr
  by_cases h1' : .one ∈ r
  · rw [multiply_of_one_right h0 h1 h1'] at h
    exact absurd h hl
  exact ((mem_multiply h0 h1 h1' _).1 h).elim

theorem zero_mem_of_divide (h : .zero ∈ l.divide r) : .zero ∈ l := by
  unfold divide at h
  split at h
  case isTrue => exact h
  case isFalse => simp at h

/-! ### What operators find besides -/

theorem ofZero_steady (b : Bool) : OfZero (ofTest fun k => k = .loopIndependent && b) := by
  intro k hk
  simp only [mem_ofTest, Bool.and_eq_true, decide_eq_true_eq] at hk
  exact mem_ofInt_zero.2 (Or.inr hk.1)

theorem ofZero_zero : OfZero (ofTest fun k => k = .zero) := by
  intro k hk
  simp only [mem_ofTest, decide_eq_true_eq] at hk
  exact mem_ofInt_zero.2 (Or.inl hk)

/-- Of zero no sign is known, nor that it differs from zero or between iterations. -/
theorem OfZero.not_mem (h : s.OfZero) {k : Kind} (hzero : k ≠ .zero)
    (hsteady : k ≠ .loopIndependent) : k ∉ s :=
  fun hk => (mem_ofInt_zero.1 (h k hk)).elim hzero hsteady

theorem ofZero_add (hl : l.OfZero) (hr : r.OfZero) : (l.add r).OfZero := by
  by_cases h0 : .zero ∈ l
  · rw [add_of_zero_left h0]
    exact hr
  by_cases h0' : .zero ∈ r
  · rw [add_of_zero_right h0 h0']
    exact hl
  intro k hk
  rw [mem_add h0 h0'] at hk
  cases k with
  | loopIndependent => exact mem_ofInt_zero.2 (Or.inr rfl)
  | loopDependent =>
    exact absurd hk.1 (not_or.2
      ⟨hl.not_mem (by decide) (by decide), hr.not_mem (by decide) (by decide)⟩)
  | notZero =>
    obtain ⟨h, -⟩ | ⟨h, -⟩ := hk <;> exact absurd h (hl.not_mem (by decide) (by decide))
  | positive | negative => exact absurd hk.1 (hl.not_mem (by decide) (by decide))
  | zero | one => exact hk.elim

theorem ofZero_multiply (h : l.OfZero ∨ r.OfZero) : (l.multiply r).OfZero := by
  by_cases h0 : .zero ∈ l ∨ .zero ∈ r
  · rw [multiply_of_zero h0]
    exact ofZero_zero
  by_cases h1 : .one ∈ l
  · rw [multiply_of_one_left h0 h1]
    exact h.resolve_left fun hl => hl.not_mem (by decide) (by decide) h1
  by_cases h1' : .one ∈ r
  · rw [multiply_of_one_right h0 h1 h1']
    exact h.resolve_right fun hr => hr.not_mem (by decide) (by decide) h1'
  -- Whatever else is known of a product takes something known of both factors.
  have hnot {a b : Kind} (ha : a ≠ .zero ∧ a ≠ .loopIndependent)
      (hb : b ≠ .zero ∧ b ≠ .loopIndependent) : ¬(a ∈ l ∧ b ∈ r) := by
    rintro ⟨hal, hbr⟩
    obtain hl | hr := h
    · exact hl.not_mem ha.1 ha.2 hal
    · exact hr.not_mem hb.1 hb.2 hbr
  intro k hk
  rw [mem_multiply h0 h1 h1'] at hk
  cases k with
  | loopIndependent => exact mem_ofInt_zero.2 (Or.inr rfl)
  | notZero => exact absurd hk (hnot (by decide) (by decide))
  | loopDependent => exact absurd hk.1 (hnot (by decide) (by decide))
  | positive | negative =>
    obtain hk | hk := hk <;> exact absurd hk (hnot (by decide) (by decide))
  | zero | one => exact hk.elim

theorem ofZero_divide (hl : l.OfZero) : (l.divide r).OfZero := by
  unfold divide
  split
  case isTrue => exact hl
  case isFalse => exact ofZero_steady _

theorem ofZero_modulo : (l.modulo r).OfZero := by
  unfold modulo
  split
  case isTrue => exact ofZero_zero
  case isFalse => exact ofZero_steady _

end Kinds

/-! ### All sets together -/

variable {P Q : Kind → Prop}

/-- If zero is among some kinds, then they are kinds of the literal `0`. -/
def ZeroLike (P : Kind → Prop) : Prop := P .zero → ∀ k, P k → k ∈ Kinds.ofInt 0

theorem ZeroLike.mono (hQ : ZeroLike Q) (h : ∀ k, P k → Q k) : ZeroLike P :=
  fun hzero k hk => hQ (h _ hzero) k (h k hk)

/-- The kinds that an operator comes to for operands with some kinds. -/
def Kinds.Finds (op : Kinds → Kinds → Kinds) (P Q : Kind → Prop) (k : Kind) : Prop :=
  ∃ l r, (∀ a ∈ l, P a) ∧ (∀ b ∈ r, Q b) ∧ k ∈ op l r

namespace ZeroLike

theorem ofZero (hP : ZeroLike P) (hzero : P .zero) {s : Kinds} (hs : ∀ k ∈ s, P k) : s.OfZero :=
  fun k hk => hP hzero k (hs k hk)

theorem opposite (hP : ZeroLike P) : ZeroLike fun k => P k.opposite := by
  intro hzero k hk
  have hk := Kinds.mem_ofInt_zero.1 (hP hzero _ hk)
  rw [Kinds.mem_ofInt_zero]
  cases k with
  | zero => exact Or.inl rfl
  | loopIndependent => exact Or.inr rfl
  | _ => simp [Kind.opposite] at hk

theorem add (hP : ZeroLike P) (hQ : ZeroLike Q) : ZeroLike (Kinds.Finds .add P Q) := by
  rintro ⟨l, r, hl, hr, hzero⟩ k ⟨l', r', hl', hr', hk⟩
  obtain ⟨hzl, hzr⟩ := Kinds.zero_mem_add.1 hzero
  exact Kinds.ofZero_add (hP.ofZero (hl _ hzl) hl') (hQ.ofZero (hr _ hzr) hr') k hk

theorem multiply (hP : ZeroLike P) (hQ : ZeroLike Q) : ZeroLike (Kinds.Finds .multiply P Q) := by
  rintro ⟨l, r, hl, hr, hzero⟩ k ⟨l', r', hl', hr', hk⟩
  refine Kinds.ofZero_multiply ?_ k hk
  obtain hz | hz := Kinds.zero_mem_of_multiply hzero
  · exact Or.inl (hP.ofZero (hl _ hz) hl')
  · exact Or.inr (hQ.ofZero (hr _ hz) hr')

theorem divide (hP : ZeroLike P) : ZeroLike (Kinds.Finds .divide P Q) := by
  rintro ⟨l, r, hl, -, hzero⟩ k ⟨l', r', hl', -, hk⟩
  exact Kinds.ofZero_divide (hP.ofZero (hl _ (Kinds.zero_mem_of_divide hzero)) hl') k hk

theorem modulo : ZeroLike (Kinds.Finds .modulo P Q) := by
  rintro - k ⟨l, r, -, -, hk⟩
  exact Kinds.ofZero_modulo k hk

/-- Adding zero says of zero that it is loop independent, and nothing of anything else. -/
theorem add_ofInt_zero {s : Kinds} (hs : ZeroLike (· ∈ s)) :
    s.add (.ofInt 0) = if s = .ofList [.zero] then .ofList [.zero, .loopIndependent] else s := by
  by_cases hzero : .zero ∈ s
  · rw [Kinds.add_of_zero_left hzero]
    have hofZero : s.OfZero := hs hzero
    obtain rfl | rfl := hofZero.eq_or_eq hzero
    · rw [if_pos rfl]
      decide
    · rw [if_neg (by decide)]
  · have hne : s ≠ .ofList [.zero] := by
      rintro rfl
      exact hzero (by decide)
    rw [Kinds.add_of_zero_right hzero (Kinds.zero_mem_ofInt.2 rfl), if_neg hne]

end ZeroLike

/-! ### Expressions -/

namespace Descriptor

/-- The kinds that an expression is found to have when its variables have some kinds. -/
def Yields (E : String → Kind → Prop) (e : Expr) (k : Kind) : Prop :=
  ∃ facts, (∀ y j, ⟨y, .kind j⟩ ∈ facts → E y j) ∧ k ∈ evaluate facts e

variable {E : String → Kind → Prop}

theorem yields_binary {op : Kinds → Kinds → Kinds} {o : BinaryOp} {l r : Expr} {k : Kind}
    (ho : ∀ facts, evaluate facts (.binary o l r) = op (evaluate facts l) (evaluate facts r))
    (h : Yields E (.binary o l r) k) : Kinds.Finds op (Yields E l) (Yields E r) k := by
  obtain ⟨facts, hfacts, hk⟩ := h
  rw [ho] at hk
  exact ⟨_, _, fun a ha => ⟨facts, hfacts, ha⟩, fun b hb => ⟨facts, hfacts, hb⟩, hk⟩

/-- **If an expression is ever found to be zero, then never anything else**, where this holds of its
variables. -/
theorem zeroLike_yields (hE : ∀ y, ZeroLike (E y)) (e : Expr) : ZeroLike (Yields E e) := by
  -- Expressions of which nothing is known.
  have hnone {e : Expr} (he : ∀ facts, evaluate facts e = ∅) : ZeroLike (Yields E e) := by
    rintro ⟨facts, -, hzero⟩
    rw [he] at hzero
    exact absurd hzero (OrderedSet.not_mem_empty _)
  induction e with
  | var y =>
    refine (hE y).mono ?_
    rintro k ⟨facts, hfacts, hk⟩
    exact hfacts y k (mem_kindsOf.1 hk)
  | int v =>
    rintro ⟨_, -, hzero⟩ k ⟨_, -, hk⟩
    obtain rfl := Kinds.zero_mem_ofInt.1 hzero
    exact hk
  | neg e ih =>
    refine ih.opposite.mono ?_
    rintro k ⟨facts, hfacts, hk⟩
    exact ⟨facts, hfacts, Kinds.mem_negate.1 hk⟩
  | paren e ih => exact ih
  | binary op l r ihl ihr =>
    cases op with
    | add => exact (ihl.add ihr).mono fun k => yields_binary fun _ => rfl
    | subtract =>
      refine (ihl.add ihr.opposite).mono ?_
      rintro k ⟨facts, hfacts, hk⟩
      exact ⟨evaluate facts l, (evaluate facts r).negate, fun a ha => ⟨facts, hfacts, ha⟩,
        fun b hb => ⟨facts, hfacts, Kinds.mem_negate.1 hb⟩, hk⟩
    | multiply => exact (ihl.multiply ihr).mono fun k => yields_binary fun _ => rfl
    | divide => exact ihl.divide.mono fun k => yields_binary fun _ => rfl
    | modulo => exact ZeroLike.modulo.mono fun k => yields_binary fun _ => rfl
    | generic | compare => exact hnone fun _ => rfl
  | access | double | cond | call => exact hnone fun _ => rfl

/-- An expression that is found to be zero is found to be nothing else but loop independent. -/
theorem zeroLike_evaluate {facts : OrderedSet Descriptor}
    (h : ∀ x, ZeroLike fun k => ⟨x, .kind k⟩ ∈ facts) (e : Expr) :
    ZeroLike (· ∈ evaluate facts e) :=
  (zeroLike_yields h e).mono fun _ hk => ⟨facts, fun _ _ hj => hj, hk⟩

end Descriptor

end ParLoop
