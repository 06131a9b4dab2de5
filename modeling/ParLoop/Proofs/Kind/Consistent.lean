import ParLoop.Kind

/-!
# Kinds as a relation between two iterations

A set of kinds speaks of the values of a variable in two iterations, an earlier and a later one.
`Consistent least s x y` says that the values `x` and `y` are as the set `s` says: a value that
depends on the loop and is positive rises, a negative one falls. Positive values are `least` or
more, where `least` is 1 or, for a counter that starts at 0, 0; a positive value that does not
depend on the loop is above 0 in both cases.

For every operator there is a lemma that the set computed for its result is consistent with the
results in the two iterations: `consistent_ofInt`, `consistent_negate`, `consistent_add`,
`consistent_multiply`, `consistent_divide`, `consistent_modulo`. They need the sets of the operands
to be well formed and say that the set of the result is.
-/

namespace ParLoop.Kinds

/-- What a set says of the sign of a value goes with what it says of the loop. -/
structure Signed (s : Kinds) : Prop where
  sign : .positive ∈ s ∨ .negative ∈ s →
    .notZero ∈ s ∧ (.loopDependent ∈ s ∨ .loopIndependent ∈ s)
  notZero : .notZero ∈ s → .positive ∈ s ∨ .negative ∈ s

/-- The sets that the operators compute. -/
structure WellFormed (s : Kinds) : Prop extends Signed s where
  one : .one ∈ s → .positive ∈ s

/-- Two values are as a set says, whatever it says of the number one. -/
structure Varies (least : Int) (s : Kinds) (x y : Int) : Prop where
  zero : .zero ∈ s → x = 0 ∧ y = 0
  positive : .positive ∈ s → least ≤ x ∧ least ≤ y
  negative : .negative ∈ s → x ≤ -least ∧ y ≤ -least
  dependent : .loopDependent ∈ s → x ≠ y
  rising : .loopDependent ∈ s → .positive ∈ s → x < y
  falling : .loopDependent ∈ s → .negative ∈ s → y < x
  independent : .loopIndependent ∈ s → x = y
  steadyPositive : .loopIndependent ∈ s → .positive ∈ s → 0 < x
  steadyNegative : .loopIndependent ∈ s → .negative ∈ s → x < 0

/-- The values of a variable in an earlier and a later iteration are as a set says. -/
structure Consistent (least : Int) (s : Kinds) (x y : Int) : Prop extends Varies least s x y where
  one : .one ∈ s → x = 1 ∧ y = 1

variable {least x y u v : Int} {l r s : Kinds}

/-- What is known of a positive value. -/
theorem Varies.grows (hs : s.Signed) (h : Varies least s x y) (hleast : 0 ≤ least)
    (hp : .positive ∈ s) :
    0 ≤ x ∧ x ≤ y ∧ 0 < y ∧ (.loopDependent ∈ s → x < y) ∧ (.loopIndependent ∈ s → x = y) := by
  obtain ⟨hx, hy⟩ := h.positive hp
  refine ⟨by omega, ?_, ?_, fun hd => h.rising hd hp, h.independent⟩
  · rcases (hs.sign (Or.inl hp)).2 with hd | hi
    · exact Int.le_of_lt (h.rising hd hp)
    · exact Int.le_of_eq (h.independent hi)
  · rcases (hs.sign (Or.inl hp)).2 with hd | hi
    · have := h.rising hd hp
      omega
    · have := h.steadyPositive hi hp
      have := h.independent hi
      omega

/-! ### Literals -/

theorem wellFormed_ofInt (n : Int) : (ofInt n).WellFormed := by
  refine ⟨⟨?_, ?_⟩, ?_⟩ <;> simp [ofInt] <;> omega

theorem consistent_ofInt (hleast : least ≤ 1) (n : Int) : Consistent least (ofInt n) n n := by
  refine ⟨⟨?_, ?_, ?_, ?_, ?_, ?_, ?_, ?_, ?_⟩, ?_⟩ <;> simp [ofInt] <;> omega

/-! ### Negation -/

@[simp] theorem mem_negate {k : Kind} : k ∈ s.negate ↔ k.opposite ∈ s := by
  simp [negate]

theorem signed_negate (hs : s.Signed) : s.negate.Signed := by
  refine ⟨fun h => ?_, fun h => ?_⟩
  · simp only [mem_negate, Kind.opposite] at h ⊢
    exact hs.sign h.symm
  · simp only [mem_negate, Kind.opposite] at h ⊢
    exact (hs.notZero h).symm

theorem varies_negate (h : Varies least s x y) : Varies least s.negate (-x) (-y) := by
  refine ⟨?_, ?_, ?_, ?_, ?_, ?_, ?_, ?_, ?_⟩ <;> simp only [mem_negate, Kind.opposite]
  · intro hz
    have := h.zero hz
    omega
  · intro hn
    have := h.negative hn
    omega
  · intro hp
    have := h.positive hp
    omega
  · intro hd
    have := h.dependent hd
    omega
  · intro hd hn
    have := h.falling hd hn
    omega
  · intro hd hp
    have := h.rising hd hp
    omega
  · intro hi
    have := h.independent hi
    omega
  · intro hi hn
    have := h.steadyNegative hi hn
    omega
  · intro hi hp
    have := h.steadyPositive hi hp
    omega

/-- A set that says nothing of the number one is consistent if it is so otherwise. -/
theorem Varies.consistent (h : Varies least s x y) (hone : .one ∉ s) : Consistent least s x y :=
  ⟨h, fun h1 => absurd h1 hone⟩

theorem Signed.wellFormed (h : s.Signed) (hone : .one ∉ s) : s.WellFormed :=
  ⟨h, fun h1 => absurd h1 hone⟩

theorem consistent_negate (h : Consistent least s x y) (hone : .one ∉ s) :
    Consistent least s.negate (-x) (-y) :=
  (varies_negate h.toVaries).consistent (by simpa [Kind.opposite] using hone)

theorem wellFormed_negate (h : s.WellFormed) (hone : .one ∉ s) : s.negate.WellFormed :=
  (signed_negate h.toSigned).wellFormed (by simpa [Kind.opposite] using hone)

/-! ### Sums -/

theorem add_of_zero_left (h0 : .zero ∈ l) : l.add r = r := by
  rw [add, if_pos h0]

theorem add_of_zero_right (h0 : .zero ∉ l) (h0' : .zero ∈ r) : l.add r = l := by
  rw [add, if_neg h0, if_pos h0']

/-- The kinds of a sum, where neither set says that its value is zero. -/
theorem mem_add (hl : .zero ∉ l) (hr : .zero ∉ r) (k : Kind) : k ∈ l.add r ↔
    match k with
    | .positive => .positive ∈ l ∧ .positive ∈ r
    | .negative => .negative ∈ l ∧ .negative ∈ r
    | .notZero => .positive ∈ l ∧ .positive ∈ r ∨ .negative ∈ l ∧ .negative ∈ r
    | .loopDependent => (.loopDependent ∈ l ∨ .loopDependent ∈ r) ∧
        ((.positive ∈ l ∧ .positive ∈ r ∨ .negative ∈ l ∧ .negative ∈ r) ∨
          .loopIndependent ∈ l ∨ .loopIndependent ∈ r)
    | .loopIndependent => .loopIndependent ∈ l ∧ .loopIndependent ∈ r
    | .zero | .one => False := by
  rw [add, if_neg hl, if_neg hr]
  cases k <;> simp [both, either]

/-- The sum is well formed; the set of the right operand may be that of a negated value. -/
theorem wellFormed_add (hl : l.WellFormed) (hr : r.Signed)
    (hone : .zero ∈ l → .one ∈ r → .positive ∈ r) : (l.add r).WellFormed := by
  by_cases h0 : .zero ∈ l
  · rw [add_of_zero_left h0]
    exact ⟨hr, hone h0⟩
  by_cases h0' : .zero ∈ r
  · rw [add_of_zero_right h0 h0']
    exact hl
  refine ⟨⟨?_, ?_⟩, ?_⟩ <;> simp only [mem_add h0 h0']
  · intro hsame
    refine ⟨hsame, ?_⟩
    rcases (hl.sign (hsame.imp And.left And.left)).2 with hd | hi
    · exact Or.inl ⟨Or.inl hd, Or.inl hsame⟩
    · rcases (hr.sign (hsame.imp And.right And.right)).2 with hd | hi'
      · exact Or.inl ⟨Or.inr hd, Or.inl hsame⟩
      · exact Or.inr ⟨hi, hi'⟩
  · exact id
  · exact False.elim

/-- Two positive values that do not fall: their sum rises if one of them does. -/
theorem rises_add (hleast : 0 ≤ least) (hl : l.Signed) (hr : r.Signed) (cl : Varies least l x y)
    (cr : Varies least r u v) (hpl : .positive ∈ l) (hpr : .positive ∈ r)
    (hd : .loopDependent ∈ l ∨ .loopDependent ∈ r) : x + u < y + v := by
  obtain ⟨-, hxy, -, hdl, -⟩ := cl.grows hl hleast hpl
  obtain ⟨-, huv, -, hdr, -⟩ := cr.grows hr hleast hpr
  rcases hd with hd | hd
  · have := hdl hd
    omega
  · have := hdr hd
    omega

/-- Two negative values that do not rise: their sum falls if one of them does. -/
theorem falls_add (hleast : 0 ≤ least) (hl : l.Signed) (hr : r.Signed) (cl : Varies least l x y)
    (cr : Varies least r u v) (hnl : .negative ∈ l) (hnr : .negative ∈ r)
    (hd : .loopDependent ∈ l ∨ .loopDependent ∈ r) : y + v < x + u := by
  have hrises := rises_add hleast (signed_negate hl) (signed_negate hr) (varies_negate cl)
    (varies_negate cr) (mem_negate.2 hnl) (mem_negate.2 hnr)
    (hd.imp mem_negate.2 mem_negate.2)
  omega

/-- A sum changes if one value depends on the loop and one does not: these are not the same one. -/
theorem changes_add (cl : Varies least l x y) (cr : Varies least r u v)
    (hd : .loopDependent ∈ l ∨ .loopDependent ∈ r)
    (hi : .loopIndependent ∈ l ∨ .loopIndependent ∈ r) : x + u ≠ y + v := by
  rcases hd with hd | hd <;> rcases hi with hi | hi
  · exact absurd (cl.independent hi) (cl.dependent hd)
  · have := cl.dependent hd
    have := cr.independent hi
    omega
  · have := cr.dependent hd
    have := cl.independent hi
    omega
  · exact absurd (cr.independent hi) (cr.dependent hd)

theorem consistent_add (hleast : 0 ≤ least) (hl : l.WellFormed) (hr : r.Signed)
    (cl : Consistent least l x y) (cr : Varies least r u v)
    (hone : .zero ∈ l → .one ∈ r → u = 1 ∧ v = 1) :
    Consistent least (l.add r) (x + u) (y + v) := by
  by_cases h0 : .zero ∈ l
  · obtain ⟨rfl, rfl⟩ := cl.zero h0
    rw [add_of_zero_left h0, Int.zero_add, Int.zero_add]
    exact ⟨cr, hone h0⟩
  by_cases h0' : .zero ∈ r
  · obtain ⟨rfl, rfl⟩ := cr.zero h0'
    rw [add_of_zero_right h0 h0', Int.add_zero, Int.add_zero]
    exact cl
  have hup := rises_add hleast hl.toSigned hr cl.toVaries cr
  have hdown := falls_add hleast hl.toSigned hr cl.toVaries cr
  refine ⟨⟨?_, ?_, ?_, ?_, ?_, ?_, ?_, ?_, ?_⟩, ?_⟩ <;> simp only [mem_add h0 h0']
  · exact False.elim
  · rintro ⟨hpl, hpr⟩
    have := cl.positive hpl
    have := cr.positive hpr
    omega
  · rintro ⟨hnl, hnr⟩
    have := cl.negative hnl
    have := cr.negative hnr
    omega
  · rintro ⟨hd, (⟨hpl, hpr⟩ | ⟨hnl, hnr⟩) | hi⟩
    · exact Int.ne_of_lt (hup hpl hpr hd)
    · exact (Int.ne_of_lt (hdown hnl hnr hd)).symm
    · exact changes_add cl.toVaries cr hd hi
  · rintro ⟨hd, -⟩ ⟨hpl, hpr⟩
    exact hup hpl hpr hd
  · rintro ⟨hd, -⟩ ⟨hnl, hnr⟩
    exact hdown hnl hnr hd
  · rintro ⟨hil, hir⟩
    rw [cl.independent hil, cr.independent hir]
  · rintro ⟨hil, hir⟩ ⟨hpl, hpr⟩
    exact Int.add_pos (cl.steadyPositive hil hpl) (cr.steadyPositive hir hpr)
  · rintro ⟨hil, hir⟩ ⟨hnl, hnr⟩
    have := cl.steadyNegative hil hnl
    have := cr.steadyNegative hir hnr
    omega
  · exact False.elim

/-! ### Products -/

theorem either_iff {k : Kind} : either l r k = true ↔ k ∈ l ∨ k ∈ r := by simp [either]

theorem multiply_of_zero (h0 : .zero ∈ l ∨ .zero ∈ r) :
    l.multiply r = ofTest fun k => k = .zero := by
  rw [multiply, if_pos (either_iff.2 h0)]

theorem multiply_of_one_left (h0 : ¬ (.zero ∈ l ∨ .zero ∈ r)) (h1 : .one ∈ l) :
    l.multiply r = r := by
  rw [multiply, if_neg (mt either_iff.1 h0), if_pos h1]

theorem multiply_of_one_right (h0 : ¬ (.zero ∈ l ∨ .zero ∈ r)) (h1 : .one ∉ l) (h1' : .one ∈ r) :
    l.multiply r = l := by
  rw [multiply, if_neg (mt either_iff.1 h0), if_neg h1, if_pos h1']

/-- The kinds of a product, where no set says that its value is zero or one. -/
theorem mem_multiply (h0 : ¬ (.zero ∈ l ∨ .zero ∈ r)) (hl : .one ∉ l) (hr : .one ∉ r) (k : Kind) :
    k ∈ l.multiply r ↔
    match k with
    | .positive => .positive ∈ l ∧ .positive ∈ r ∨ .negative ∈ l ∧ .negative ∈ r
    | .negative => .positive ∈ l ∧ .negative ∈ r ∨ .negative ∈ l ∧ .positive ∈ r
    | .notZero => .notZero ∈ l ∧ .notZero ∈ r
    | .loopDependent => (.notZero ∈ l ∧ .notZero ∈ r) ∧ (.loopDependent ∈ l ∨ .loopDependent ∈ r)
    | .loopIndependent => .loopIndependent ∈ l ∧ .loopIndependent ∈ r
    | .zero | .one => False := by
  rw [multiply, if_neg (mt either_iff.1 h0), if_neg hl, if_neg hr]
  cases k <;> simp [both, either]

/-- Two positive values that do not fall: their product rises if one of them does. -/
theorem grows_multiply (hleast : least = 0 ∨ least = 1) (hl : l.Signed) (hr : r.Signed)
    (cl : Varies least l x y) (cr : Varies least r u v) (hpl : .positive ∈ l)
    (hpr : .positive ∈ r) :
    (least ≤ x * u ∧ least ≤ y * v) ∧ (.loopDependent ∈ l ∨ .loopDependent ∈ r → x * u < y * v) ∧
      (.loopIndependent ∈ l → .loopIndependent ∈ r → 0 < x * u) := by
  obtain ⟨hx, hxy, hy, hdl, -⟩ := cl.grows hl (by omega) hpl
  obtain ⟨hu, huv, hv, hdr, -⟩ := cr.grows hr (by omega) hpr
  refine ⟨?_, ?_, fun hil hir =>
    Int.mul_pos (cl.steadyPositive hil hpl) (cr.steadyPositive hir hpr)⟩
  · rcases hleast with rfl | rfl
    · exact ⟨Int.mul_nonneg hx hu, Int.mul_nonneg (by omega) (by omega)⟩
    · have hlow := cl.positive hpl
      have hlow' := cr.positive hpr
      exact ⟨Int.mul_pos (by omega) (by omega), Int.mul_pos hy hv⟩
  · rintro (hd | hd)
    · calc x * u ≤ x * v := Int.mul_le_mul_of_nonneg_left huv hx
        _ < y * v := Int.mul_lt_mul_of_pos_right (hdl hd) hv
    · calc x * u ≤ y * u := Int.mul_le_mul_of_nonneg_right hxy hu
        _ < y * v := Int.mul_lt_mul_of_pos_left (hdr hd) hy

/-- The product of two values of one sign. -/
theorem multiply_of_sameSigns (hleast : least = 0 ∨ least = 1) (hl : l.Signed) (hr : r.Signed)
    (cl : Varies least l x y) (cr : Varies least r u v)
    (hsigns : .positive ∈ l ∧ .positive ∈ r ∨ .negative ∈ l ∧ .negative ∈ r) :
    (least ≤ x * u ∧ least ≤ y * v) ∧ (.loopDependent ∈ l ∨ .loopDependent ∈ r → x * u < y * v) ∧
      (.loopIndependent ∈ l → .loopIndependent ∈ r → 0 < x * u) := by
  rcases hsigns with ⟨hpl, hpr⟩ | ⟨hnl, hnr⟩
  · exact grows_multiply hleast hl hr cl cr hpl hpr
  · have hgrows := grows_multiply hleast (signed_negate hl) (signed_negate hr) (varies_negate cl)
      (varies_negate cr) (mem_negate.2 hnl) (mem_negate.2 hnr)
    simpa only [mem_negate, Kind.opposite, Int.neg_mul_neg] using hgrows

/-- The product of two values of different signs. -/
theorem multiply_of_mixedSigns (hleast : least = 0 ∨ least = 1) (hl : l.Signed) (hr : r.Signed)
    (cl : Varies least l x y) (cr : Varies least r u v)
    (hsigns : .positive ∈ l ∧ .negative ∈ r ∨ .negative ∈ l ∧ .positive ∈ r) :
    (x * u ≤ -least ∧ y * v ≤ -least) ∧
      (.loopDependent ∈ l ∨ .loopDependent ∈ r → y * v < x * u) ∧
      (.loopIndependent ∈ l → .loopIndependent ∈ r → x * u < 0) := by
  -- The product with one value negated is one of two positive values.
  have hgrows : (least ≤ -(x * u) ∧ least ≤ -(y * v)) ∧
      (.loopDependent ∈ l ∨ .loopDependent ∈ r → -(x * u) < -(y * v)) ∧
      (.loopIndependent ∈ l → .loopIndependent ∈ r → 0 < -(x * u)) := by
    rcases hsigns with ⟨hpl, hnr⟩ | ⟨hnl, hpr⟩
    · have hgrows := grows_multiply hleast hl (signed_negate hr) cl (varies_negate cr) hpl
        (mem_negate.2 hnr)
      simpa only [mem_negate, Kind.opposite, Int.mul_neg] using hgrows
    · have hgrows := grows_multiply hleast (signed_negate hl) hr (varies_negate cl) cr
        (mem_negate.2 hnl) hpr
      simpa only [mem_negate, Kind.opposite, Int.neg_mul] using hgrows
  obtain ⟨hlow, hrises, hsteady⟩ := hgrows
  refine ⟨by omega, fun hd => ?_, fun hil hir => ?_⟩
  · have := hrises hd
    omega
  · have := hsteady hil hir
    omega

/-- Two values that are not zero have one sign or different ones. -/
theorem sameSigns_or_mixedSigns (hl : l.Signed) (hr : r.Signed) (hnl : .notZero ∈ l)
    (hnr : .notZero ∈ r) : (.positive ∈ l ∧ .positive ∈ r ∨ .negative ∈ l ∧ .negative ∈ r) ∨
      (.positive ∈ l ∧ .negative ∈ r ∨ .negative ∈ l ∧ .positive ∈ r) := by
  rcases hl.notZero hnl with hsl | hsl <;> rcases hr.notZero hnr with hsr | hsr
  · exact Or.inl (Or.inl ⟨hsl, hsr⟩)
  · exact Or.inr (Or.inl ⟨hsl, hsr⟩)
  · exact Or.inr (Or.inr ⟨hsl, hsr⟩)
  · exact Or.inl (Or.inr ⟨hsl, hsr⟩)

theorem wellFormed_multiply (hl : l.WellFormed) (hr : r.WellFormed) :
    (l.multiply r).WellFormed := by
  by_cases h0 : .zero ∈ l ∨ .zero ∈ r
  · rw [multiply_of_zero h0]
    refine ⟨⟨?_, ?_⟩, ?_⟩ <;> simp
  by_cases h1 : .one ∈ l
  · rw [multiply_of_one_left h0 h1]
    exact hr
  by_cases h1' : .one ∈ r
  · rw [multiply_of_one_right h0 h1 h1']
    exact hl
  refine ⟨⟨?_, ?_⟩, ?_⟩ <;> simp only [mem_multiply h0 h1 h1']
  · intro hsign
    have hsl : .positive ∈ l ∨ .negative ∈ l := by
      rcases hsign with (h | h) | h | h
      · exact Or.inl h.1
      · exact Or.inr h.1
      · exact Or.inl h.1
      · exact Or.inr h.1
    have hsr : .positive ∈ r ∨ .negative ∈ r := by
      rcases hsign with (h | h) | h | h
      · exact Or.inl h.2
      · exact Or.inr h.2
      · exact Or.inr h.2
      · exact Or.inl h.2
    obtain ⟨hnl, hvl⟩ := hl.sign hsl
    obtain ⟨hnr, hvr⟩ := hr.sign hsr
    refine ⟨⟨hnl, hnr⟩, ?_⟩
    rcases hvl with hd | hi
    · exact Or.inl ⟨⟨hnl, hnr⟩, Or.inl hd⟩
    · rcases hvr with hd | hi'
      · exact Or.inl ⟨⟨hnl, hnr⟩, Or.inr hd⟩
      · exact Or.inr ⟨hi, hi'⟩
  · rintro ⟨hnl, hnr⟩
    exact sameSigns_or_mixedSigns hl.toSigned hr.toSigned hnl hnr
  · exact False.elim

theorem consistent_multiply (hleast : least = 0 ∨ least = 1) (hl : l.WellFormed)
    (hr : r.WellFormed) (cl : Consistent least l x y) (cr : Consistent least r u v) :
    Consistent least (l.multiply r) (x * u) (y * v) := by
  by_cases h0 : .zero ∈ l ∨ .zero ∈ r
  · have hzero : x * u = 0 ∧ y * v = 0 := by
      rcases h0 with h0 | h0
      · obtain ⟨rfl, rfl⟩ := cl.zero h0
        exact ⟨Int.zero_mul _, Int.zero_mul _⟩
      · obtain ⟨rfl, rfl⟩ := cr.zero h0
        exact ⟨Int.mul_zero _, Int.mul_zero _⟩
    rw [multiply_of_zero h0, hzero.1, hzero.2]
    refine ⟨⟨?_, ?_, ?_, ?_, ?_, ?_, ?_, ?_, ?_⟩, ?_⟩ <;> simp
  by_cases h1 : .one ∈ l
  · obtain ⟨rfl, rfl⟩ := cl.one h1
    rw [multiply_of_one_left h0 h1, Int.one_mul, Int.one_mul]
    exact cr
  by_cases h1' : .one ∈ r
  · obtain ⟨rfl, rfl⟩ := cr.one h1'
    rw [multiply_of_one_right h0 h1 h1', Int.mul_one, Int.mul_one]
    exact cl
  have hsame := multiply_of_sameSigns hleast hl.toSigned hr.toSigned cl.toVaries cr.toVaries
  have hmixed := multiply_of_mixedSigns hleast hl.toSigned hr.toSigned cl.toVaries cr.toVaries
  refine ⟨⟨?_, ?_, ?_, ?_, ?_, ?_, ?_, ?_, ?_⟩, ?_⟩ <;> simp only [mem_multiply h0 h1 h1']
  · exact False.elim
  · exact fun hsigns => (hsame hsigns).1
  · exact fun hsigns => (hmixed hsigns).1
  · rintro ⟨⟨hnl, hnr⟩, hd⟩
    rcases sameSigns_or_mixedSigns hl.toSigned hr.toSigned hnl hnr with hsigns | hsigns
    · exact Int.ne_of_lt ((hsame hsigns).2.1 hd)
    · exact (Int.ne_of_lt ((hmixed hsigns).2.1 hd)).symm
  · rintro ⟨-, hd⟩ hsigns
    exact (hsame hsigns).2.1 hd
  · rintro ⟨-, hd⟩ hsigns
    exact (hmixed hsigns).2.1 hd
  · rintro ⟨hil, hir⟩
    rw [cl.independent hil, cr.independent hir]
  · rintro ⟨hil, hir⟩ hsigns
    exact (hsame hsigns).2.2 hil hir
  · rintro ⟨hil, hir⟩ hsigns
    exact (hmixed hsigns).2.2 hil hir
  · exact False.elim

/-! ### Quotients and remainders -/

/-- Division of integers. How quotients are rounded is left open, and nothing is said of a divisor
zero but that zero divided is zero. -/
structure Division where
  quotient : Int → Int → Int
  remainder : Int → Int → Int
  quotient_one : ∀ n, quotient n 1 = n
  zero_quotient : ∀ n, quotient 0 n = 0
  remainder_one : ∀ n, remainder n 1 = 0
  zero_remainder : ∀ n, remainder 0 n = 0

/-- Division rounded towards zero. -/
def Division.truncated : Division where
  quotient := Int.tdiv
  remainder := Int.tmod
  quotient_one := Int.tdiv_one
  zero_quotient := Int.zero_tdiv
  remainder_one := Int.tmod_one
  zero_remainder := Int.zero_tmod

theorem wellFormed_steady (b : Bool) :
    (ofTest fun k => k = .loopIndependent && b).WellFormed := by
  refine ⟨⟨?_, ?_⟩, ?_⟩ <;> simp

/-- A set that says at most that a value does not depend on the loop. -/
theorem consistent_steady {b : Bool} (h : b = true → x = y) :
    Consistent least (ofTest fun k => k = .loopIndependent && b) x y := by
  refine ⟨⟨?_, ?_, ?_, ?_, ?_, ?_, ?_, ?_, ?_⟩, ?_⟩ <;> simp
  exact h

theorem both_independent (cl : Varies least l x y) (cr : Varies least r u v)
    (h : both l r .loopIndependent = true) : x = y ∧ u = v := by
  simp only [both, Bool.and_eq_true, OrderedSet.contains_iff] at h
  exact ⟨cl.independent h.1, cr.independent h.2⟩

theorem wellFormed_divide (hl : l.WellFormed) : (l.divide r).WellFormed := by
  unfold divide
  split
  · exact hl
  · exact wellFormed_steady _

theorem consistent_divide (d : Division) (cl : Consistent least l x y)
    (cr : Consistent least r u v) :
    Consistent least (l.divide r) (d.quotient x u) (d.quotient y v) := by
  unfold divide
  split
  case isTrue h =>
    have heq : d.quotient x u = x ∧ d.quotient y v = y := by
      rcases h with h | h
      · obtain ⟨rfl, rfl⟩ := cr.one h
        exact ⟨d.quotient_one _, d.quotient_one _⟩
      · obtain ⟨rfl, rfl⟩ := cl.zero h
        exact ⟨d.zero_quotient _, d.zero_quotient _⟩
    rw [heq.1, heq.2]
    exact cl
  case isFalse =>
    refine consistent_steady fun h => ?_
    obtain ⟨rfl, rfl⟩ := both_independent cl.toVaries cr.toVaries h
    rfl

theorem wellFormed_modulo : (l.modulo r).WellFormed := by
  unfold modulo
  split
  · refine ⟨⟨?_, ?_⟩, ?_⟩ <;> simp
  · exact wellFormed_steady _

theorem consistent_modulo (d : Division) (cl : Consistent least l x y)
    (cr : Consistent least r u v) :
    Consistent least (l.modulo r) (d.remainder x u) (d.remainder y v) := by
  unfold modulo
  split
  case isTrue h =>
    have heq : d.remainder x u = 0 ∧ d.remainder y v = 0 := by
      rcases h with h | h
      · obtain ⟨rfl, rfl⟩ := cr.one h
        exact ⟨d.remainder_one _, d.remainder_one _⟩
      · obtain ⟨rfl, rfl⟩ := cl.zero h
        exact ⟨d.zero_remainder _, d.zero_remainder _⟩
    rw [heq.1, heq.2]
    refine ⟨⟨?_, ?_, ?_, ?_, ?_, ?_, ?_, ?_, ?_⟩, ?_⟩ <;> simp
  case isFalse =>
    refine consistent_steady fun h => ?_
    obtain ⟨rfl, rfl⟩ := both_independent cl.toVaries cr.toVaries h
    rfl

/-- Of a value of which nothing is known, nothing is said. -/
theorem wellFormed_empty : (∅ : Kinds).WellFormed := by
  refine ⟨⟨?_, ?_⟩, ?_⟩ <;> simp

theorem consistent_empty : Consistent least ∅ x y := by
  refine ⟨⟨?_, ?_, ?_, ?_, ?_, ?_, ?_, ?_, ?_⟩, ?_⟩ <;> simp

/-! ### Where something is known -/

/-- Something is known. -/
def Known (s : Kinds) : Prop := ∃ k, k ∈ s

/-- What a set says of one value: it is zero or one, and it does not both change and stay. -/
structure Definite (s : Kinds) (x : Int) : Prop where
  zero : .zero ∈ s → x = 0
  one : .one ∈ s → x = 1
  apart : ¬ (.loopDependent ∈ s ∧ .loopIndependent ∈ s)

theorem Consistent.definite_left (h : Consistent least s x y) : Definite s x :=
  ⟨fun h0 => (h.zero h0).1, fun h1 => (h.one h1).1, fun hk => h.dependent hk.1 (h.independent hk.2)⟩

theorem Consistent.definite_right (h : Consistent least s x y) : Definite s y :=
  ⟨fun h0 => (h.zero h0).2, fun h1 => (h.one h1).2, fun hk => h.dependent hk.1 (h.independent hk.2)⟩

theorem known_of_negate (h : s.negate.Known) : s.Known := by
  obtain ⟨k, hk⟩ := h
  exact ⟨_, mem_negate.1 hk⟩

/-- Where a sum is known, so are its operands. -/
theorem known_of_add (h : (l.add r).Known)
    (hl : ¬ (.loopDependent ∈ l ∧ .loopIndependent ∈ l))
    (hr : ¬ (.loopDependent ∈ r ∧ .loopIndependent ∈ r)) : l.Known ∧ r.Known := by
  by_cases h0 : .zero ∈ l
  · rw [add_of_zero_left h0] at h
    exact ⟨⟨_, h0⟩, h⟩
  by_cases h0' : .zero ∈ r
  · rw [add_of_zero_right h0 h0'] at h
    exact ⟨h, ⟨_, h0'⟩⟩
  obtain ⟨k, hk⟩ := h
  rw [mem_add h0 h0'] at hk
  cases k with
  | zero => exact hk.elim
  | one => exact hk.elim
  | positive => exact ⟨⟨_, hk.1⟩, ⟨_, hk.2⟩⟩
  | negative => exact ⟨⟨_, hk.1⟩, ⟨_, hk.2⟩⟩
  | notZero => exact hk.elim (fun h => ⟨⟨_, h.1⟩, ⟨_, h.2⟩⟩) fun h => ⟨⟨_, h.1⟩, ⟨_, h.2⟩⟩
  | loopIndependent => exact ⟨⟨_, hk.1⟩, ⟨_, hk.2⟩⟩
  | loopDependent =>
    obtain ⟨hd, (h | h) | hi⟩ := hk
    · exact ⟨⟨_, h.1⟩, ⟨_, h.2⟩⟩
    · exact ⟨⟨_, h.1⟩, ⟨_, h.2⟩⟩
    · rcases hd with hd | hd <;> rcases hi with hi | hi
      · exact absurd ⟨hd, hi⟩ hl
      · exact ⟨⟨_, hd⟩, ⟨_, hi⟩⟩
      · exact ⟨⟨_, hi⟩, ⟨_, hd⟩⟩
      · exact absurd ⟨hd, hi⟩ hr

/-- Where a product is known, an operand is zero or both are known. -/
theorem known_of_multiply (h : (l.multiply r).Known) :
    (.zero ∈ l ∨ .zero ∈ r) ∨ l.Known ∧ r.Known := by
  by_cases h0 : .zero ∈ l ∨ .zero ∈ r
  · exact Or.inl h0
  right
  by_cases h1 : .one ∈ l
  · rw [multiply_of_one_left h0 h1] at h
    exact ⟨⟨_, h1⟩, h⟩
  by_cases h1' : .one ∈ r
  · rw [multiply_of_one_right h0 h1 h1'] at h
    exact ⟨h, ⟨_, h1'⟩⟩
  obtain ⟨k, hk⟩ := h
  rw [mem_multiply h0 h1 h1'] at hk
  cases k with
  | zero => exact hk.elim
  | one => exact hk.elim
  | positive => exact hk.elim (fun h => ⟨⟨_, h.1⟩, ⟨_, h.2⟩⟩) fun h => ⟨⟨_, h.1⟩, ⟨_, h.2⟩⟩
  | negative => exact hk.elim (fun h => ⟨⟨_, h.1⟩, ⟨_, h.2⟩⟩) fun h => ⟨⟨_, h.1⟩, ⟨_, h.2⟩⟩
  | notZero => exact ⟨⟨_, hk.1⟩, ⟨_, hk.2⟩⟩
  | loopDependent => exact ⟨⟨_, hk.1.1⟩, ⟨_, hk.1.2⟩⟩
  | loopIndependent => exact ⟨⟨_, hk.1⟩, ⟨_, hk.2⟩⟩

theorem known_of_steady
    (h : (ofTest fun k => k = .loopIndependent && both l r .loopIndependent).Known) :
    l.Known ∧ r.Known := by
  obtain ⟨k, hk⟩ := h
  simp only [mem_ofTest, both, Bool.and_eq_true, OrderedSet.contains_iff] at hk
  exact ⟨⟨_, hk.2.1⟩, ⟨_, hk.2.2⟩⟩

/-- Where a quotient is known, its dividend is zero or both operands are known. -/
theorem known_of_divide (h : (l.divide r).Known) : .zero ∈ l ∨ l.Known ∧ r.Known := by
  unfold divide at h
  split at h
  case isTrue h1 => exact h1.elim (fun h1 => Or.inr ⟨h, ⟨_, h1⟩⟩) Or.inl
  case isFalse => exact Or.inr (known_of_steady h)

/-- Where a remainder is known, the dividend is zero, the divisor one, or both are known. -/
theorem known_of_modulo (h : (l.modulo r).Known) :
    .zero ∈ l ∨ .one ∈ r ∨ l.Known ∧ r.Known := by
  unfold modulo at h
  split at h
  case isTrue h1 => exact h1.elim (fun h1 => Or.inr (Or.inl h1)) Or.inl
  case isFalse => exact Or.inr (Or.inr (known_of_steady h))

end ParLoop.Kinds
