/-!
# Double constants

A double is a sign and a magnitude. The magnitude is the place of the number among the non-negative
doubles: 0 is zero, 1 the least positive double, `infinity` the first place after the largest finite
one. The exact value of a finite magnitude, counted in units of 2^-1074, is `Double.units`; it grows
with the magnitude.

`Double.ofDecimal` reads a decimal: of the doubles it takes the nearest, of two equally near ones
the one with even magnitude.
-/

namespace ParLoop

open Std

/-- A decimal number `coefficient * 10 ^ exponent`. -/
structure Decimal where
  coefficient : Nat
  exponent : Int
deriving DecidableEq, Repr

/-- The number of doubles from a power of two up to the next. -/
def Double.binade : Nat := Nat.pow 2 52

/-- The number of units of 2^-1074 in 1. -/
def Double.one : Nat := Nat.pow 2 1074

/-- The place of infinity among the magnitudes. -/
def Double.infinity : Nat := 2047 * Double.binade

/-- A double constant. Zero has one sign only. -/
structure Double where
  negative : Bool
  magnitude : Nat
  magnitude_le : magnitude ≤ Double.infinity
  zero_positive : magnitude = 0 → negative = false
deriving DecidableEq

namespace Double

/-- Doubles are ordered by sign bit, then by magnitude. -/
instance : Ord Double where
  compare a b := (compare a.negative b.negative).then (compare a.magnitude b.magnitude)

theorem compare_eq (a b : Double) :
    compare a b = (compare a.negative b.negative).then (compare a.magnitude b.magnitude) := rfl

instance : TransOrd Double :=
  inferInstanceAs (TransCmp (compareLex (compareOn Double.negative) (compareOn Double.magnitude)))

instance : LawfulEqOrd Double where
  compare_self {a} := by simp
  eq_of_compare {a b} h := by
    rw [compare_eq, Ordering.then_eq_eq] at h
    have hs := LawfulEqCmp.eq_of_compare h.1
    have hm := LawfulEqCmp.eq_of_compare h.2
    cases a
    cases b
    cases hs
    cases hm
    rfl

/-- The double with a given sign and magnitude; a magnitude past infinity counts as infinity and
zero loses its sign. -/
def ofMagnitude (negative : Bool) (n : Nat) : Double where
  negative := negative && n != 0
  magnitude := min n infinity
  magnitude_le := Nat.min_le_right _ _
  zero_positive h := by
    have hi : infinity ≠ 0 := by decide
    have : n = 0 := by omega
    simp [this]

/-- The double with the other sign; zero is its own negation. -/
def neg (d : Double) : Double := ofMagnitude (!d.negative) d.magnitude

/-- Whether the double is a number. -/
def isFinite (d : Double) : Bool := d.magnitude != infinity

/-- The 64 bits of the interchange format, as a number. -/
def bits (d : Double) : Nat := (if d.negative then Nat.pow 2 63 else 0) + d.magnitude

/-- The value of a magnitude in units of 2^-1074. -/
def units (n : Nat) : Nat :=
  if n < binade then n else (binade + n % binade) * Nat.pow 2 (n / binade - 1)

/-- The quotient rounded to the nearest integer, a half to the even one. -/
def roundHalfEven (num den : Nat) : Nat :=
  let q := num / den
  let r := num % den
  if 2 * r < den then q else if den < 2 * r then q + 1 else q + q % 2

/-- The magnitude nearest to `num / den` units. The quotient is rounded to 53 binary digits, or to
whole units where that is coarser. -/
def nearest (num den : Nat) : Nat :=
  let shift := (num / den).log2 - 52
  min (shift * binade + roundHalfEven num (den * Nat.pow 2 shift)) infinity

/-- The number of decimal digits of a natural number. -/
def digitCount (n : Nat) : Nat := (Nat.toDigits 10 n).length

/-- The magnitude nearest to a decimal. Decimals from 10^310 on are infinite and those below 10^-330
are zero, which spares computing large powers. -/
def magnitudeOf (d : Decimal) : Nat :=
  if d.coefficient = 0 then 0
  else if 310 ≤ d.exponent then infinity
  else if digitCount d.coefficient + d.exponent < -330 then 0
  else
    nearest (d.coefficient * Nat.pow 10 d.exponent.toNat * one) (Nat.pow 10 (-d.exponent).toNat)

/-- The double nearest to a decimal, with a given sign. -/
def ofDecimal (negative : Bool) (d : Decimal) : Double := ofMagnitude negative (magnitudeOf d)

end Double

end ParLoop
