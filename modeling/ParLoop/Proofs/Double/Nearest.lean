import Mathlib.Tactic.Ring
import Mathlib.Tactic.Linarith
import ParLoop.Double.Basic

/-!
# Reading decimals

`Double.nearest` depends on the quotient only (`nearest_congr`), so that a decimal and the same
number with other trailing zeros are read alike (`magnitudeOf_mul_pow`). A quotient that differs
from the value of a magnitude by less than the 2^-54th part of it is read as this magnitude
(`nearest_eq_of_close`): half the distance to the next double is not smaller.
-/

namespace ParLoop.Double

variable {n num den num' den' : Nat}

/-! ### Rounding quotients -/

theorem roundHalfEven_mul {k : Nat} (hk : 0 < k) (num den : Nat) :
    roundHalfEven (num * k) (den * k) = roundHalfEven num den := by
  have hlt (a b : Nat) : a * k < b * k ↔ a < b := Nat.mul_lt_mul_right hk
  unfold roundHalfEven
  simp only [Nat.mul_div_mul_right num den hk, Nat.mul_mod_mul_right, ← Nat.mul_assoc, hlt]

theorem nearest_mul {k : Nat} (hk : 0 < k) (num den : Nat) :
    nearest (num * k) (den * k) = nearest num den := by
  unfold nearest
  have hcomm (a : Nat) : den * k * a = den * a * k := Nat.mul_right_comm den k a
  simp only [Nat.mul_div_mul_right num den hk, hcomm, roundHalfEven_mul hk]

/-- Equal quotients are read alike. -/
theorem nearest_congr (hden : 0 < den) (hden' : 0 < den') (h : num * den' = num' * den) :
    nearest num den = nearest num' den' := by
  rw [← nearest_mul hden' num den, ← nearest_mul hden num' den', h, Nat.mul_comm den den']

/-- A quotient that is nearer than a half to a number is rounded to it. -/
theorem roundHalfEven_eq_of_close {m : Nat} (hlow : 2 * m * den < 2 * num + den)
    (hhigh : 2 * num < 2 * m * den + den) : roundHalfEven num den = m := by
  have hnum : num / den * den + num % den = num := Nat.div_add_mod' num den
  have hden : 0 < den := by omega
  have hr : num % den < den := Nat.mod_lt num hden
  -- Comparing multiples of the denominator compares the factors.
  have hfactor (a b : Nat) (h : a * den < b * den) : a < b := Nat.lt_of_mul_lt_mul_right h
  unfold roundHalfEven
  dsimp only
  generalize num / den = q at hnum ⊢
  generalize num % den = r at hnum hr ⊢
  split
  case isTrue h =>
    have hle : 2 * q < 2 * m + 1 := hfactor _ _ (by linarith)
    have hge : 2 * m < 2 * q + 2 := hfactor _ _ (by linarith)
    omega
  case isFalse h =>
    have hlt : 2 * q < 2 * m := by
      have hlt : 2 * q + 1 < 2 * m + 1 := hfactor _ _ (by linarith)
      omega
    split
    case isTrue =>
      have hge : 2 * m < 2 * q + 3 := hfactor _ _ (by linarith)
      omega
    case isFalse =>
      have hge : 2 * m < 2 * q + 2 := hfactor _ _ (by linarith)
      omega

/-! ### Values of magnitudes -/

/-- A magnitude is a number of at most 53 binary digits, shifted. -/
theorem exists_units (n : Nat) : ∃ m s, units n = m * 2 ^ s ∧ n = s * binade + m ∧ m < 2 ^ 53 ∧
    (s = 0 ∨ 2 ^ 52 ≤ m) := by
  have hbinade : binade = 2 ^ 52 := rfl
  unfold units
  split
  case isTrue h => exact ⟨n, 0, by simp, by omega, by omega, Or.inl rfl⟩
  case isFalse h =>
    have hn : n / binade * binade + n % binade = n := Nat.div_add_mod' n binade
    have hmod : n % binade < binade := Nat.mod_lt n (by omega)
    obtain ⟨s, hs⟩ : ∃ s, n / binade = s + 1 :=
      Nat.exists_eq_succ_of_ne_zero (Nat.ne_of_gt (Nat.div_pos (by omega) (by omega)))
    refine ⟨binade + n % binade, s, ?_, ?_, by omega, Or.inr (by omega)⟩
    · rw [hs]
      rfl
    · rw [hs, Nat.succ_mul] at hn
      omega

theorem units_pos (h : 0 < n) : 0 < units n := by
  obtain ⟨m, s, hunits, hn, -, hm⟩ := exists_units n
  have hm : 0 < m := by
    obtain rfl | hm := hm
    · omega
    · omega
  rw [hunits]
  exact Nat.mul_pos hm (Nat.pow_pos (by decide))

/-- A quotient that lies between two powers of two has a binary logarithm between the exponents. -/
theorem log2_div_lt {k : Nat} (hden : 0 < den) (hk : 0 < k) (h : num < 2 ^ k * den) :
    (num / den).log2 < k := by
  by_cases hzero : num / den = 0
  · rw [hzero, Nat.log2_zero]
    exact hk
  · rw [Nat.log2_lt hzero]
    exact (Nat.div_lt_iff_lt_mul hden).2 h

theorem le_log2_div {k : Nat} (hden : 0 < den) (h : 2 ^ k * den ≤ num) :
    k ≤ (num / den).log2 := by
  have hle : 2 ^ k ≤ num / den := (Nat.le_div_iff_mul_le hden).2 h
  have hpos : 0 < 2 ^ k := Nat.pow_pos (by decide)
  exact (Nat.le_log2 (by omega)).2 hle

section Close

/-! Here the quotient differs from the value of a magnitude, which is `m` shifted by `s`, by less
than the 2^-54th part of it. -/

variable {m s : Nat}

/-- The quotient has as many binary digits as the value, unless this is a power of two. -/
theorem shift_of_close (hden : 0 < den) (hm : m < 2 ^ 53) (hnormal : s = 0 ∨ 2 ^ 52 ≤ m)
    (hlow : (2 ^ 54 - 1) * (m * (den * 2 ^ s)) < 2 ^ 54 * num)
    (hhigh : 2 ^ 54 * num < (2 ^ 54 + 1) * (m * (den * 2 ^ s))) :
    (num / den).log2 - 52 = s ∨
      m = 2 ^ 52 ∧ ∃ s', s = s' + 1 ∧ (num / den).log2 - 52 = s' := by
  have hmax : m * (den * 2 ^ s) ≤ (2 ^ 53 - 1) * (den * 2 ^ s) :=
    Nat.mul_le_mul_right _ (by omega)
  have hlog : (num / den).log2 < 53 + s := by
    refine log2_div_lt hden (by omega) ?_
    have hpow : 2 ^ (53 + s) * den = 2 ^ 53 * (den * 2 ^ s) := by ring
    omega
  obtain rfl | hnormal := hnormal
  · exact Or.inl (by omega)
  by_cases hpower : m = 2 ^ 52
  · have hle : 51 + s ≤ (num / den).log2 := by
      refine le_log2_div hden ?_
      have hpow : 2 ^ (51 + s) * den = 2 ^ 51 * (den * 2 ^ s) := by ring
      rw [hpower] at hlow
      omega
    obtain _ | s := s
    · exact Or.inl (by omega)
    · by_cases heq : (num / den).log2 - 52 = s + 1
      · exact Or.inl heq
      · exact Or.inr ⟨hpower, s, rfl, by omega⟩
  · have hle : 52 + s ≤ (num / den).log2 := by
      refine le_log2_div hden ?_
      have hpow : 2 ^ (52 + s) * den = 2 ^ 52 * (den * 2 ^ s) := by ring
      have hmin : (2 ^ 52 + 1) * (den * 2 ^ s) ≤ m * (den * 2 ^ s) :=
        Nat.mul_le_mul_right _ (by omega)
      omega
    exact Or.inl (by omega)

theorem roundHalfEven_of_close (hden : 0 < den) (hm : m < 2 ^ 53)
    (hlow : (2 ^ 54 - 1) * (m * (den * 2 ^ s)) < 2 ^ 54 * num)
    (hhigh : 2 ^ 54 * num < (2 ^ 54 + 1) * (m * (den * 2 ^ s))) :
    roundHalfEven num (den * 2 ^ s) = m := by
  have hmax : m * (den * 2 ^ s) ≤ (2 ^ 53 - 1) * (den * 2 ^ s) :=
    Nat.mul_le_mul_right _ (by omega)
  have hD : 0 < den * 2 ^ s := Nat.mul_pos hden (Nat.pow_pos (by decide))
  refine roundHalfEven_eq_of_close ?_ ?_
  · rw [Nat.mul_assoc]
    omega
  · rw [Nat.mul_assoc]
    omega

/-- Just below a power of two the doubles are twice as dense. -/
theorem roundHalfEven_of_close_below (hden : 0 < den)
    (hlow : (2 ^ 54 - 1) * (2 ^ 52 * (den * 2 ^ (s + 1))) < 2 ^ 54 * num)
    (hhigh : 2 ^ 54 * num < (2 ^ 54 + 1) * (2 ^ 52 * (den * 2 ^ (s + 1)))) :
    roundHalfEven num (den * 2 ^ s) = 2 ^ 53 := by
  have hpow : den * 2 ^ (s + 1) = 2 * (den * 2 ^ s) := by ring
  have hD : 0 < den * 2 ^ s := Nat.mul_pos hden (Nat.pow_pos (by decide))
  rw [hpow] at hlow hhigh
  refine roundHalfEven_eq_of_close ?_ ?_
  · omega
  · omega

end Close

/-- A quotient is read as the magnitude from which it differs by less than the 2^-54th part. -/
theorem nearest_eq_of_close (hn : n < infinity)
    (hlow : (2 ^ 54 - 1) * (units n * den) < 2 ^ 54 * num)
    (hhigh : 2 ^ 54 * num < (2 ^ 54 + 1) * (units n * den)) : nearest num den = n := by
  obtain ⟨m, s, hunits, hvalue, hm, hnormal⟩ := exists_units n
  have hden : 0 < den := by
    refine Nat.pos_of_ne_zero fun hzero => ?_
    rw [hzero, Nat.mul_zero, Nat.mul_zero] at hhigh
    omega
  have hproduct : units n * den = m * (den * 2 ^ s) := by rw [hunits]; ring
  rw [hproduct] at hlow hhigh
  unfold nearest
  dsimp only
  obtain hs | ⟨rfl, s', rfl, hs⟩ := shift_of_close hden hm hnormal hlow hhigh
  · have hround : roundHalfEven num (den * Nat.pow 2 s) = m :=
      roundHalfEven_of_close hden hm hlow hhigh
    rw [hs, hround, ← hvalue]
    exact Nat.min_eq_left (Nat.le_of_lt hn)
  · have hround : roundHalfEven num (den * Nat.pow 2 s') = 2 ^ 53 :=
      roundHalfEven_of_close_below hden hlow hhigh
    have hvalue : s' * binade + 2 ^ 53 = n := by
      have hbinade : binade = 2 ^ 52 := rfl
      rw [hvalue, hbinade]
      omega
    rw [hs, hround, hvalue]
    exact Nat.min_eq_left (Nat.le_of_lt hn)

/-! ### Decimals -/

theorem digitCount_mul_ten (hn : 0 < n) : digitCount (n * 10) = digitCount n + 1 := by
  have happend := Nat.toDigits_append_toDigits (by decide : 1 < 10) hn (by decide : 0 < 10)
  unfold digitCount
  rw [Nat.mul_comm n 10, ← Nat.add_zero (10 * n), ← happend, List.length_append]
  rfl

theorem digitCount_mul_pow (hn : 0 < n) (k : Nat) : digitCount (n * 10 ^ k) = digitCount n + k := by
  induction k with
  | zero => rw [Nat.pow_zero, Nat.mul_one, Nat.add_zero]
  | succ k ih =>
    have hpos : 0 < n * 10 ^ k := Nat.mul_pos hn (Nat.pow_pos (by decide))
    rw [Nat.pow_succ, ← Nat.mul_assoc, digitCount_mul_ten hpos, ih, Nat.add_assoc]

theorem digitCount_le_iff {k : Nat} (hk : 0 < k) : digitCount n ≤ k ↔ n < 10 ^ k :=
  Nat.length_toDigits_le_iff (by decide) hk

theorem digitCount_pos (n : Nat) : 0 < digitCount n := Nat.length_toDigits_pos

theorem magnitudeOf_eq_zero {c : Nat} {e : Int} (hc : c ≠ 0) (he : e < 310)
    (hcount : digitCount c + e < -330) : magnitudeOf ⟨c, e⟩ = 0 := by
  have he : ¬310 ≤ e := by omega
  rw [magnitudeOf, if_neg hc, if_neg he, if_pos hcount]

/-- A decimal within the limits is read as the nearest magnitude. -/
theorem magnitudeOf_eq_nearest {c : Nat} {e : Int} (hc : c ≠ 0) (he : e < 310)
    (hcount : -330 ≤ digitCount c + e) :
    magnitudeOf ⟨c, e⟩ = nearest (c * 10 ^ e.toNat * one) (10 ^ (-e).toNat) := by
  have he : ¬310 ≤ e := by omega
  have hcount : ¬(digitCount c : Int) + e < -330 := by omega
  rw [magnitudeOf, if_neg hc, if_neg he, if_neg hcount]
  rfl

/-- Trailing zeros do not change what is read. -/
theorem magnitudeOf_mul_pow {c k : Nat} {e : Int} (hc : c ≠ 0) (he : e + k < 310) :
    magnitudeOf ⟨c * 10 ^ k, e⟩ = magnitudeOf ⟨c, e + k⟩ := by
  have hpos : 0 < 10 ^ k := Nat.pow_pos (by decide)
  have hck : c * 10 ^ k ≠ 0 := Nat.mul_ne_zero hc (by omega)
  have hdigits := digitCount_mul_pow (Nat.pos_of_ne_zero hc) k
  by_cases hcount : (digitCount c : Int) + (e + k) < -330
  · rw [magnitudeOf_eq_zero hck (by omega) (by omega), magnitudeOf_eq_zero hc he hcount]
  · rw [magnitudeOf_eq_nearest hck (by omega) (by omega),
      magnitudeOf_eq_nearest hc he (by omega)]
    refine nearest_congr (Nat.pow_pos (by decide)) (Nat.pow_pos (by decide)) ?_
    have hexponent : k + e.toNat + (-(e + k)).toNat = (e + k).toNat + (-e).toNat := by omega
    have hpow := congrArg (10 ^ ·) hexponent
    simp only [Nat.pow_add] at hpow
    calc c * 10 ^ k * 10 ^ e.toNat * one * 10 ^ (-(e + k)).toNat
        = c * one * (10 ^ k * 10 ^ e.toNat * 10 ^ (-(e + k)).toNat) := by ring
      _ = c * one * (10 ^ (e + k).toNat * 10 ^ (-e).toNat) := by rw [hpow]
      _ = c * 10 ^ (e + k).toNat * one * 10 ^ (-e).toNat := by ring

end ParLoop.Double
