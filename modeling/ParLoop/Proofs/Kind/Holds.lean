import ParLoop.Proofs.Kind.Consistent

/-!
# Kinds as properties of a value

`Holds s x` says that the value `x` is as the set `s` says, as far as the set speaks of one value.
For every operator there is a lemma that what the operands' sets say of the operands, the set
computed for the result says of the result. Negation is the exception: the set computed for the
negation of a value known to be one still says that it is one. What it says of signs is right
(`Signs`), and a value that is said to be one is at least 1 or -1 (`Sized`).

`Relates s x y` adds what the set says of the values in an earlier and a later iteration. For the
sets that the operators compute this is `Consistent 1` (`relates_iff_consistent`).
-/

namespace ParLoop.Kinds

/-- What a set says of the sign of a value is true of it. -/
structure Signs (s : Kinds) (x : Int) : Prop where
  zero : .zero ∈ s → x = 0
  positive : .positive ∈ s → 0 < x
  negative : .negative ∈ s → x < 0
  notZero : .notZero ∈ s → x ≠ 0

/-- What a set says of a value is true of it. -/
structure Holds (s : Kinds) (x : Int) : Prop extends Signs s x where
  one : .one ∈ s → x = 1

/-- What a set says of the size of a value is true of it: a value said to be one may be -1. -/
structure Sized (s : Kinds) (x : Int) : Prop where
  zero : .zero ∈ s → x = 0
  one : .one ∈ s → x = 1 ∨ x = -1

variable {x y u v : Int} {l r s : Kinds}

theorem Holds.sized (h : Holds s x) : Sized s x := ⟨h.zero, fun h1 => Or.inl (h.one h1)⟩

/-! ### Literals and negation -/

theorem holds_ofInt (n : Int) : (ofInt n).Holds n := by
  refine ⟨⟨?_, ?_, ?_, ?_⟩, ?_⟩ <;> simp [ofInt]

theorem holds_empty : Holds ∅ x := by
  refine ⟨⟨?_, ?_, ?_, ?_⟩, ?_⟩ <;> simp

theorem signs_negate (h : Signs s x) : s.negate.Signs (-x) := by
  refine ⟨?_, ?_, ?_, ?_⟩ <;> simp only [mem_negate, Kind.opposite]
  · intro h0
    have := h.zero h0
    omega
  · intro hn
    have := h.negative hn
    omega
  · intro hp
    have := h.positive hp
    omega
  · intro h0
    have := h.notZero h0
    omega

theorem holds_negate (h : Holds s x) (hone : .one ∉ s) : s.negate.Holds (-x) :=
  ⟨signs_negate h.toSigns, fun h1 => absurd (by simpa [Kind.opposite] using h1) hone⟩

theorem sized_negate (h : Sized s x) : s.negate.Sized (-x) := by
  refine ⟨?_, ?_⟩ <;> simp only [mem_negate, Kind.opposite]
  · intro h0
    have := h.zero h0
    omega
  · intro h1
    have := h.one h1
    omega

/-! ### Sums -/

theorem holds_add (hl : l.Holds x) (hr : r.Signs u) (hone : .zero ∈ l → .one ∈ r → u = 1) :
    (l.add r).Holds (x + u) := by
  by_cases h0 : .zero ∈ l
  · rw [add_of_zero_left h0, hl.zero h0, Int.zero_add]
    exact ⟨hr, hone h0⟩
  by_cases h0' : .zero ∈ r
  · rw [add_of_zero_right h0 h0', hr.zero h0', Int.add_zero]
    exact hl
  have hpos : .positive ∈ l ∧ .positive ∈ r → 0 < x + u := fun h =>
    Int.add_pos (hl.positive h.1) (hr.positive h.2)
  have hneg : .negative ∈ l ∧ .negative ∈ r → x + u < 0 := by
    rintro ⟨hnl, hnr⟩
    have := hl.negative hnl
    have := hr.negative hnr
    omega
  refine ⟨⟨?_, ?_, ?_, ?_⟩, ?_⟩ <;> simp only [mem_add h0 h0']
  · exact False.elim
  · exact hpos
  · exact hneg
  · rintro (h | h)
    · exact (Int.ne_of_lt (hpos h)).symm
    · exact Int.ne_of_lt (hneg h)
  · exact False.elim

theorem sized_add (hl : l.Sized x) (hr : r.Sized u) : (l.add r).Sized (x + u) := by
  by_cases h0 : .zero ∈ l
  · rw [add_of_zero_left h0, hl.zero h0, Int.zero_add]
    exact hr
  by_cases h0' : .zero ∈ r
  · rw [add_of_zero_right h0 h0', hr.zero h0', Int.add_zero]
    exact hl
  refine ⟨?_, ?_⟩ <;> simp only [mem_add h0 h0'] <;> exact False.elim

/-! ### Products -/

theorem mul_eq_zero_of_sized (hl : l.Sized x) (hr : r.Sized u) (h0 : .zero ∈ l ∨ .zero ∈ r) :
    x * u = 0 := by
  rcases h0 with h0 | h0
  · rw [hl.zero h0, Int.zero_mul]
  · rw [hr.zero h0, Int.mul_zero]

theorem holds_multiply (hl : l.Holds x) (hr : r.Holds u) : (l.multiply r).Holds (x * u) := by
  by_cases h0 : .zero ∈ l ∨ .zero ∈ r
  · rw [multiply_of_zero h0, mul_eq_zero_of_sized hl.sized hr.sized h0]
    refine ⟨⟨?_, ?_, ?_, ?_⟩, ?_⟩ <;> simp
  by_cases h1 : .one ∈ l
  · rw [multiply_of_one_left h0 h1, hl.one h1, Int.one_mul]
    exact hr
  by_cases h1' : .one ∈ r
  · rw [multiply_of_one_right h0 h1 h1', hr.one h1', Int.mul_one]
    exact hl
  refine ⟨⟨?_, ?_, ?_, ?_⟩, ?_⟩ <;> simp only [mem_multiply h0 h1 h1']
  · exact False.elim
  · rintro (⟨hsl, hsr⟩ | ⟨hsl, hsr⟩)
    · exact Int.mul_pos (hl.positive hsl) (hr.positive hsr)
    · exact Int.mul_pos_of_neg_of_neg (hl.negative hsl) (hr.negative hsr)
  · rintro (⟨hsl, hsr⟩ | ⟨hsl, hsr⟩)
    · exact Int.mul_neg_of_pos_of_neg (hl.positive hsl) (hr.negative hsr)
    · exact Int.mul_neg_of_neg_of_pos (hl.negative hsl) (hr.positive hsr)
  · rintro ⟨hnl, hnr⟩
    exact Int.mul_ne_zero (hl.notZero hnl) (hr.notZero hnr)
  · exact False.elim

theorem sized_multiply (hl : l.Sized x) (hr : r.Sized u) : (l.multiply r).Sized (x * u) := by
  by_cases h0 : .zero ∈ l ∨ .zero ∈ r
  · rw [multiply_of_zero h0, mul_eq_zero_of_sized hl hr h0]
    refine ⟨?_, ?_⟩ <;> simp
  by_cases h1 : .one ∈ l
  · rw [multiply_of_one_left h0 h1]
    refine ⟨fun hz => absurd (Or.inr hz) h0, fun h1' => ?_⟩
    rcases hl.one h1 with rfl | rfl <;> rcases hr.one h1' with rfl | rfl <;> decide
  by_cases h1' : .one ∈ r
  · rw [multiply_of_one_right h0 h1 h1']
    exact ⟨fun hz => absurd (Or.inl hz) h0, fun h => absurd h h1⟩
  refine ⟨?_, ?_⟩ <;> simp only [mem_multiply h0 h1 h1'] <;> exact False.elim

/-! ### Quotients and remainders -/

theorem holds_steady (b : Bool) : (ofTest fun k => k = .loopIndependent && b).Holds x := by
  refine ⟨⟨?_, ?_, ?_, ?_⟩, ?_⟩ <;> simp

theorem holds_divide (d : Division) (hl : l.Holds x) (hr : r.Holds u) :
    (l.divide r).Holds (d.quotient x u) := by
  unfold divide
  split
  case isTrue h =>
    have heq : d.quotient x u = x := by
      rcases h with h | h
      · rw [hr.one h, d.quotient_one]
      · rw [hl.zero h, d.zero_quotient]
    rw [heq]
    exact hl
  case isFalse => exact holds_steady _

theorem holds_modulo (d : Division) (hl : l.Holds x) (hr : r.Holds u) :
    (l.modulo r).Holds (d.remainder x u) := by
  unfold modulo
  split
  case isTrue h =>
    have heq : d.remainder x u = 0 := by
      rcases h with h | h
      · rw [hr.one h, d.remainder_one]
      · rw [hl.zero h, d.zero_remainder]
    rw [heq]
    refine ⟨⟨?_, ?_, ?_, ?_⟩, ?_⟩ <;> simp
  case isFalse => exact holds_steady _

/-- Quotient and remainder make up the dividend, and the remainder is smaller than the divisor. -/
def Division.IsExact (d : Division) : Prop :=
  ∀ m n, n ≠ 0 → d.quotient m n * n + d.remainder m n = m ∧
    (d.remainder m n).natAbs < n.natAbs

theorem Division.isExact_truncated : Division.truncated.IsExact := by
  intro m n hn
  refine ⟨Int.tdiv_mul_add_tmod m n, ?_⟩
  show (Int.tmod m n).natAbs < n.natAbs
  rw [Int.natAbs_tmod]
  exact Nat.mod_lt _ (Int.natAbs_pos.2 hn)

variable {d : Division}

theorem Division.IsExact.remainder_neg_one (hd : d.IsExact) (n : Int) : d.remainder n (-1) = 0 := by
  obtain ⟨-, h⟩ := hd n (-1) (by decide)
  omega

theorem Division.IsExact.quotient_neg_one (hd : d.IsExact) (n : Int) :
    d.quotient n (-1) = -n := by
  obtain ⟨h, -⟩ := hd n (-1) (by decide)
  rw [hd.remainder_neg_one] at h
  omega

theorem sized_divide (hd : d.IsExact) (hl : l.Sized x) (hr : r.Sized u) :
    (l.divide r).Sized (d.quotient x u) := by
  unfold divide
  split
  case isTrue h =>
    refine ⟨fun h0 => by rw [hl.zero h0, d.zero_quotient], fun h1 => ?_⟩
    have hx := hl.one h1
    rcases h with h | h
    · rcases hr.one h with rfl | rfl
      · rw [d.quotient_one]
        exact hx
      · rw [hd.quotient_neg_one]
        omega
    · have := hl.zero h
      omega
  case isFalse => exact (holds_steady _).sized

theorem sized_modulo (hd : d.IsExact) (hl : l.Sized x) (hr : r.Sized u) :
    (l.modulo r).Sized (d.remainder x u) := by
  unfold modulo
  split
  case isTrue h =>
    have heq : d.remainder x u = 0 := by
      rcases h with h | h
      · rcases hr.one h with rfl | rfl
        · rw [d.remainder_one]
        · rw [hd.remainder_neg_one]
      · rw [hl.zero h, d.zero_remainder]
    rw [heq]
    refine ⟨?_, ?_⟩ <;> simp
  case isFalse => exact (holds_steady _).sized

/-! ### Two iterations -/

/-- What a set says of the values of a variable in an earlier and a later iteration is true of
them. -/
structure Relates (s : Kinds) (x y : Int) : Prop where
  earlier : s.Holds x
  later : s.Holds y
  independent : .loopIndependent ∈ s → x = y
  dependent : .loopDependent ∈ s → x ≠ y
  rising : .loopDependent ∈ s → .positive ∈ s → x < y
  falling : .loopDependent ∈ s → .negative ∈ s → y < x

/-- In a well-formed set a value that is not zero has a sign, so that nothing more is said than by
`Consistent 1`. -/
theorem relates_iff_consistent (hs : s.WellFormed) : s.Relates x y ↔ Consistent 1 s x y := by
  constructor
  · intro h
    refine ⟨⟨fun h0 => ⟨h.earlier.zero h0, h.later.zero h0⟩, fun hp => ?_, fun hn => ?_,
      h.dependent, h.rising, h.falling, h.independent, fun _ hp => h.earlier.positive hp,
      fun _ hn => h.earlier.negative hn⟩, fun h1 => ⟨h.earlier.one h1, h.later.one h1⟩⟩
    · exact ⟨h.earlier.positive hp, h.later.positive hp⟩
    · have := h.earlier.negative hn
      have := h.later.negative hn
      omega
  · intro h
    have hpos : .positive ∈ s → 0 < x ∧ 0 < y := h.positive
    have hneg : .negative ∈ s → x < 0 ∧ y < 0 := fun hn => by
      have := h.negative hn
      omega
    have hne : .notZero ∈ s → x ≠ 0 ∧ y ≠ 0 := fun h0 => by
      rcases hs.notZero h0 with hp | hn
      · have := hpos hp
        omega
      · have := hneg hn
        omega
    exact ⟨⟨⟨fun h0 => (h.zero h0).1, fun hp => (hpos hp).1, fun hn => (hneg hn).1,
        fun h0 => (hne h0).1⟩, fun h1 => (h.one h1).1⟩,
      ⟨⟨fun h0 => (h.zero h0).2, fun hp => (hpos hp).2, fun hn => (hneg hn).2,
        fun h0 => (hne h0).2⟩, fun h1 => (h.one h1).2⟩,
      h.independent, h.dependent, h.rising, h.falling⟩

end ParLoop.Kinds
