import ParLoop.Expr.Basic
import ParLoop.Proofs.Double.Shortest
import ParLoop.Proofs.Listing.Numerals

/-!
# The text of a double reads back

Whether a double is written in full or with an exponent, its text is scanned as one number, and the
decimal that the text denotes is read as the double (`spells_text`, `ofDecimal_text`).
-/

namespace ParLoop.Listing

open ParLoop.Double

variable {ds digits : List Char}

/-! ### Zeros around digits -/

theorem digitsValue_append_zeros (ds : List Char) (z : Nat) :
    digitsValue (ds ++ List.replicate z '0') = digitsValue ds * 10 ^ z := by
  rw [digitsValue_eq_ofDigitChars, digitsValue_eq_ofDigitChars, Nat.ofDigitChars_append,
    Nat.ofDigitChars_replicate_zero, Nat.mul_comm]

theorem digitsValue_zeros_append (z : Nat) (ds : List Char) :
    digitsValue (List.replicate z '0' ++ ds) = digitsValue ds := by
  rw [digitsValue_eq_ofDigitChars, digitsValue_eq_ofDigitChars, Nat.ofDigitChars_append,
    Nat.ofDigitChars_replicate_zero, Nat.mul_zero]

/-- Cutting off the trailing zeros leaves the other digits. -/
theorem exists_trailing_zeros (ds : List Char) :
    ∃ z, ds = (ds.reverse.dropWhile (· == '0')).reverse ++ List.replicate z '0' := by
  have hzeros : (ds.reverse.takeWhile (· == '0')).reverse =
      List.replicate (ds.reverse.takeWhile (· == '0')).length '0' := by
    rw [List.eq_replicate_iff, List.length_reverse]
    refine ⟨rfl, fun c hc => ?_⟩
    rw [List.mem_reverse] at hc
    exact beq_iff_eq.1 (List.all_eq_true.1 List.all_takeWhile c hc)
  refine ⟨(ds.reverse.takeWhile (· == '0')).length, ?_⟩
  rw [← hzeros, ← List.reverse_append, List.takeWhile_append_dropWhile, List.reverse_reverse]

/-! ### The two ways of writing a number -/

/-- Characters that are scanned as one floating-point number of a given value. -/
def DenotesFloat (cs : List Char) (v : Decimal) : Prop :=
  Spells cs [(.float, cs)] ∧ decimalValue cs = v

theorem denotesFloat_numeral {whole fraction : List Char} {exponent : Option (Bool × List Char)}
    (hne : whole ≠ []) (hwhole : whole.all Char.isDigit = true)
    (hfraction : fraction.all Char.isDigit = true) (hexponent : IsExponent exponent)
    (hfloat : (fraction.isEmpty && exponent.isNone) = false) :
    DenotesFloat (numeral whole fraction exponent)
      ⟨digitsValue (whole ++ fraction), exponentValue exponent - fraction.length⟩ := by
  refine ⟨?_, decimalValue_numeral hwhole hfraction hexponent⟩
  have hspells := spells_numeral hne hwhole hfraction hexponent
  rwa [hfloat] at hspells

theorem isExponent_none : IsExponent none := fun _ h => absurd h (by simp)

theorem all_isDigit_replicate (z : Nat) : (List.replicate z '0').all Char.isDigit = true := by
  simp [List.all_replicate]

/-- Digits with a point between them, or all before the point. -/
theorem denotesFloat_take_drop (hne : digits ≠ []) (hdigits : digits.all Char.isDigit = true)
    {w : Nat} (hw : 0 < w) {exponent : Option (Bool × List Char)} (hexponent : IsExponent exponent)
    (hfloat : ((digits.drop w).isEmpty && exponent.isNone) = false) :
    DenotesFloat (numeral (digits.take w) (digits.drop w) exponent)
      ⟨digitsValue digits, exponentValue exponent - ((digits.length - w : Nat) : Int)⟩ := by
  have hall := List.all_eq_true.1 hdigits
  have hfloat := @denotesFloat_numeral (digits.take w) _ _ ?_ ?_ ?_ hexponent hfloat
  · rwa [List.take_append_drop, List.length_drop] at hfloat
  · rw [Ne, List.take_eq_nil_iff]
    exact not_or.2 ⟨by omega, hne⟩
  · exact List.all_eq_true.2 fun c hc => hall c (List.mem_of_mem_take hc)
  · exact List.all_eq_true.2 fun c hc => hall c (List.mem_of_mem_drop hc)

/-- Digits some places behind the point. -/
theorem denotesFloat_zeros_append (hne : digits ≠ []) (hdigits : digits.all Char.isDigit = true)
    (z : Nat) : DenotesFloat ('0' :: '.' :: List.replicate z '0' ++ digits)
      ⟨digitsValue digits, -((z + digits.length : Nat) : Int)⟩ := by
  have htext : '0' :: '.' :: List.replicate z '0' ++ digits =
      numeral ['0'] (List.replicate z '0' ++ digits) none := by
    simp [numeral, pointed, raised, hne]
  have hfloat := @denotesFloat_numeral ['0'] (List.replicate z '0' ++ digits) none
    (List.cons_ne_nil _ _) (by decide) ?_ isExponent_none (by simp [hne])
  · have hvalue : digitsValue (['0'] ++ (List.replicate z '0' ++ digits)) = digitsValue digits :=
      digitsValue_zeros_append (z + 1) digits
    have hexponent : exponentValue none = 0 := rfl
    rwa [hvalue, hexponent, Int.zero_sub, List.length_append, List.length_replicate,
      ← htext] at hfloat
  · rw [List.all_append, all_isDigit_replicate, hdigits]
    rfl

/-- Digits before the point, with zeros between them and the point. -/
theorem denotesFloat_append_zeros (hne : digits ≠ []) (hdigits : digits.all Char.isDigit = true)
    (z : Nat) : DenotesFloat (digits ++ List.replicate z '0' ++ ['.', '0'])
      ⟨digitsValue digits * 10 ^ (z + 1), -1⟩ := by
  have htext : digits ++ List.replicate z '0' ++ ['.', '0'] =
      numeral (digits ++ List.replicate z '0') ['0'] none := by simp [numeral, pointed, raised]
  have hvalue : digitsValue (digits ++ List.replicate z '0' ++ ['0']) =
      digitsValue digits * 10 ^ (z + 1) := by
    rw [← digitsValue_append_zeros, List.replicate_succ', List.append_assoc]
  rw [htext, ← hvalue]
  refine denotesFloat_numeral (by simp [hne]) ?_ (by decide) isExponent_none rfl
  rw [List.all_append, all_isDigit_replicate, hdigits]
  rfl

/-- Digits written without exponent, up to zeros that are added. -/
theorem denotesFloat_plain (hne : digits ≠ []) (hdigits : digits.all Char.isDigit = true)
    (lead : Int) : ∃ k : Nat, DenotesFloat (plain digits lead)
      ⟨digitsValue digits * 10 ^ k, lead + 1 - digits.length - k⟩ := by
  have hlength := List.length_pos_iff.2 hne
  unfold plain
  split
  case isTrue hlead =>
    have hexponent : lead + 1 - digits.length - (0 : Nat) =
        -(((-lead - 1).toNat + digits.length : Nat) : Int) := by omega
    refine ⟨0, ?_⟩
    rw [Nat.pow_zero, Nat.mul_one, hexponent]
    exact denotesFloat_zeros_append hne hdigits _
  case isFalse hlead =>
    dsimp only
    by_cases hshort : digits.length ≤ lead.toNat + 1
    · -- A whole number: zeros fill the digits up to the point, and one stands behind it.
      obtain ⟨z, hz⟩ : ∃ z, lead.toNat + 1 = digits.length + z :=
        ⟨_, (Nat.add_sub_cancel' hshort).symm⟩
      have hdrop : digits.drop (digits.length + z) = [] := List.drop_eq_nil_of_le (by omega)
      have htake : (digits ++ List.replicate z '0').take (digits.length + z) =
          digits ++ List.replicate z '0' := List.take_of_length_le (by simp)
      have hexponent : lead + 1 - digits.length - ((z + 1 : Nat) : Int) = -1 := by omega
      refine ⟨z + 1, ?_⟩
      rw [hz, Nat.add_sub_cancel_left, hdrop, htake, List.isEmpty_nil, if_pos rfl, hexponent]
      exact denotesFloat_append_zeros hne hdigits z
    · -- The point stands between the digits.
      have hdrop : digits.drop (lead.toNat + 1) ≠ [] := by
        rw [Ne, List.drop_eq_nil_iff]
        omega
      have hempty : (digits.drop (lead.toNat + 1)).isEmpty = false :=
        List.isEmpty_eq_false_iff.2 hdrop
      have hzero : lead.toNat + 1 - digits.length = 0 := by omega
      have htext : digits.take (lead.toNat + 1) ++ '.' :: digits.drop (lead.toNat + 1) =
          numeral (digits.take (lead.toNat + 1)) (digits.drop (lead.toNat + 1)) none := by
        simp [numeral, pointed, raised, hdrop]
      have hexponent : exponentValue none - ((digits.length - (lead.toNat + 1) : Nat) : Int) =
          lead + 1 - digits.length - (0 : Nat) := by
        show (0 : Int) - _ = _
        omega
      refine ⟨0, ?_⟩
      rw [hzero, List.replicate_zero, List.append_nil, hempty, if_neg Bool.false_ne_true, htext,
        Nat.pow_zero, Nat.mul_one, ← hexponent]
      exact denotesFloat_take_drop hne hdigits (Nat.succ_pos _) isExponent_none
        (by rw [hempty]; rfl)

/-- Digits written with an exponent. -/
theorem denotesFloat_scientific (hne : digits ≠ []) (hdigits : digits.all Char.isDigit = true)
    (lead : Int) : DenotesFloat (scientific "" digits lead)
      ⟨digitsValue digits, lead + 1 - digits.length⟩ := by
  have hlength := List.length_pos_iff.2 hne
  have hpointed : (if (digits.drop 1).isEmpty then [] else '.' :: digits.drop 1) =
      pointed (digits.drop 1) := rfl
  have hexponent (negative : Bool) (n : Nat) :
      IsExponent (some (negative, Nat.toDigits 10 n)) := by
    rintro e ⟨⟩
    exact ⟨Nat.toDigits_ne_nil, all_isDigit_toDigits n⟩
  have hvalue (negative : Bool) (n : Nat) (hn : lead = if negative then -(n : Int) else n) :
      exponentValue (some (negative, Nat.toDigits 10 n)) - ((digits.length - 1 : Nat) : Int) =
        lead + 1 - digits.length := by
    cases negative with
    | true =>
      show -(digitsValue (Nat.toDigits 10 n) : Int) - _ = _
      rw [digitsValue_toDigits, hn, if_pos rfl]
      omega
    | false =>
      show (digitsValue (Nat.toDigits 10 n) : Int) - _ = _
      rw [digitsValue_toDigits, hn]
      simp only [Bool.false_eq_true, if_false]
      omega
  unfold scientific
  dsimp only
  rw [hpointed, List.append_assoc]
  split
  case isTrue hlead =>
    rw [← hvalue false lead.toNat (by simp only [Bool.false_eq_true, if_false]; omega)]
    exact denotesFloat_take_drop hne hdigits Nat.one_pos (hexponent false lead.toNat)
      (Bool.and_false _)
  case isFalse hlead =>
    rw [← hvalue true (-lead).toNat (by rw [if_pos rfl]; omega)]
    exact denotesFloat_take_drop hne hdigits Nat.one_pos (hexponent true (-lead).toNat)
      (Bool.and_false _)

/-! ### Doubles -/

/-- The digits that are written for a decimal, with the exponent of the first one. -/
theorem exists_digitsOf {d : Decimal} (hd : d.coefficient ≠ 0) : ∃ z : Nat,
    (digitsOf d).1 ≠ [] ∧ (digitsOf d).1.all Char.isDigit = true ∧
      digitsValue (digitsOf d).1 ≠ 0 ∧ d.coefficient = digitsValue (digitsOf d).1 * 10 ^ z ∧
      (digitsOf d).2 + 1 - (digitsOf d).1.length = d.exponent + z := by
  obtain ⟨z, hz⟩ := exists_trailing_zeros (Nat.toDigits 10 d.coefficient)
  have hvalue : d.coefficient = digitsValue (digitsOf d).1 * 10 ^ z := by
    rw [← digitsValue_toDigits d.coefficient, hz, digitsValue_append_zeros]
    rfl
  have hne : digitsValue (digitsOf d).1 ≠ 0 := by
    intro hzero
    rw [hzero, Nat.zero_mul] at hvalue
    exact hd hvalue
  refine ⟨z, ?_, ?_, hne, hvalue, ?_⟩
  · intro hnil
    rw [hnil] at hne
    exact hne rfl
  · have hall := all_isDigit_toDigits d.coefficient
    rw [hz, List.all_append, Bool.and_eq_true] at hall
    exact hall.1
  · have hlength := congrArg List.length hz
    rw [List.length_append, List.length_replicate] at hlength
    show d.exponent + (Nat.toDigits 10 d.coefficient).length - 1 + 1 -
      ((Nat.toDigits 10 d.coefficient).reverse.dropWhile (· == '0')).reverse.length = d.exponent + z
    omega

/-- A positive finite double is written as the digits of its shortest decimal. -/
theorem toList_text {d : Double} (hsign : d.negative = false) (hfinite : d.magnitude < infinity)
    (hpos : 0 < d.magnitude) {digits : List Char} {lead : Int}
    (hdigits : digitsOf (shortest .up d.magnitude) = (digits, lead)) :
    (d.text Expr.numerals).toList =
      if -4 ≤ lead ∧ lead ≤ 15 then plain digits lead else scientific "" digits lead := by
  unfold text
  rw [hsign, if_neg (Nat.ne_of_lt hfinite), if_neg (Nat.ne_of_gt hpos)]
  simp [Expr.numerals, hdigits]

/-- The text of a finite double without sign denotes a decimal that is read as the double. -/
theorem exists_denotesFloat {d : Double} (hsign : d.negative = false)
    (hfinite : d.isFinite = true) :
    ∃ v, DenotesFloat (d.text Expr.numerals).toList v ∧ magnitudeOf v = d.magnitude := by
  have hfinite : d.magnitude < infinity :=
    Nat.lt_of_le_of_ne d.magnitude_le (bne_iff_ne.1 hfinite)
  by_cases hzero : d.magnitude = 0
  · have htext : (d.text Expr.numerals).toList = ['0', '.', '0'] := by
      unfold text
      rw [hsign, hzero]
      rfl
    rw [htext, hzero]
    exact ⟨_, denotesFloat_zeros_append (List.cons_ne_nil '0' []) rfl 0, rfl⟩
  · have hpos := Nat.pos_of_ne_zero hzero
    have hcoefficient := coefficient_shortest_ne_zero hpos hfinite .up
    obtain ⟨z, hne, hdigits, hvalue, hmul, hlead⟩ := exists_digitsOf hcoefficient
    have hlt := exponent_shortest_lt hpos hfinite .up hvalue hmul
    generalize hpair : digitsOf (shortest .up d.magnitude) = pair at hne hdigits hvalue hmul hlead
    obtain ⟨digits, lead⟩ := pair
    have hread : magnitudeOf ⟨digitsValue digits, (shortest .up d.magnitude).exponent + z⟩ =
        d.magnitude := by
      rw [← magnitudeOf_mul_pow hvalue hlt, ← hmul]
      exact magnitudeOf_shortest hpos hfinite .up
    rw [toList_text hsign hfinite hpos hpair]
    split
    · obtain ⟨k, hk⟩ := denotesFloat_plain hne hdigits lead
      refine ⟨_, hk, ?_⟩
      rw [hlead, magnitudeOf_mul_pow hvalue (by omega), Int.sub_add_cancel, hread]
    · refine ⟨_, denotesFloat_scientific hne hdigits lead, ?_⟩
      rw [hlead, hread]

theorem spells_text {d : Double} (hsign : d.negative = false) (hfinite : d.isFinite = true) :
    Spells (d.text Expr.numerals).toList [(.float, (d.text Expr.numerals).toList)] := by
  obtain ⟨v, hv, -⟩ := exists_denotesFloat hsign hfinite
  exact hv.1

/-- **The text of a finite double reads back as the double.** -/
theorem ofDecimal_text {d : Double} (hsign : d.negative = false) (hfinite : d.isFinite = true) :
    ofDecimal false (decimalValue (d.text Expr.numerals).toList) = d := by
  obtain ⟨v, hv, hmagnitude⟩ := exists_denotesFloat hsign hfinite
  obtain ⟨negative, magnitude, hle, hzero⟩ := d
  rw [hv.2, ofDecimal, hmagnitude]
  have hsign : negative = false := hsign
  subst hsign
  simp [ofMagnitude, Nat.min_eq_left hle]

end ParLoop.Listing
