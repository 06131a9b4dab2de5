import ParLoop.Double.Basic

/-!
# Doubles as text

A double is written with the fewest digits that read back as it; of several such numerals the
nearest one is taken. `NumeralStyle` holds what a format decides beyond that: down to which power of
ten numbers are written out in full, the sign of a positive exponent, and which of two equally near
numerals is chosen.
-/

namespace ParLoop

/-- The choice between two equally near numerals. -/
inductive Tie where
  | up
  | even

/-- The decisions of a number format. -/
structure NumeralStyle where
  /-- The least exponent of the leading digit with which a number is written without exponent. -/
  leastPlain : Int
  /-- The largest exponent of the leading digit with which a number is written without exponent. -/
  mostPlain : Int
  /-- What stands before a positive exponent. -/
  plus : String
  tie : Tie

namespace Double

/-- The exponent of the leading decimal digit of a positive finite magnitude. -/
def leadingExponent (n : Nat) : Int :=
  if one ≤ units n then (digitCount (units n / one) : Int) - 1
  else -(digitCount ((one - 1) / units n) : Int)

/-- The multiple of `10 ^ e` next to the magnitude `n` that reads back as `n`, the nearer one if
both neighbours do. -/
def onGrid (tie : Tie) (n : Nat) (e : Int) : Option Decimal :=
  let num := units n * Nat.pow 10 (-e).toNat
  let den := one * Nat.pow 10 e.toNat
  let below : Decimal := ⟨num / den, e⟩
  let above : Decimal := ⟨num / den + 1, e⟩
  let r := num % den
  match magnitudeOf below == n, magnitudeOf above == n with
  | true, true =>
    if 2 * r < den then some below
    else if den < 2 * r then some above
    else match tie with
      | .up => some above
      | .even => some (if below.coefficient % 2 = 0 then below else above)
  | true, false => some below
  | false, true => some above
  | false, false => none

/-- The shortest decimal that reads back as the magnitude `n`: grids of 1, 2, … 17 digits are tried
in turn. -/
def shortest (tie : Tie) (n : Nat) : Decimal :=
  let lead := leadingExponent n
  ((List.range 17).findSome? fun (p : Nat) => onGrid tie n (lead - p)).getD ⟨0, 0⟩

/-- The digits of a decimal without trailing zeros, and the exponent of the first digit. -/
def digitsOf (d : Decimal) : List Char × Int :=
  let ds := Nat.toDigits 10 d.coefficient
  ((ds.reverse.dropWhile (· == '0')).reverse, d.exponent + ds.length - 1)

/-- Digits written without exponent, where the first has the exponent `lead`. -/
def plain (digits : List Char) (lead : Int) : List Char :=
  if lead < 0 then
    '0' :: '.' :: List.replicate (-lead - 1).toNat '0' ++ digits
  else
    let whole := lead.toNat + 1
    let padded := digits ++ List.replicate (whole - digits.length) '0'
    let fraction := digits.drop whole
    padded.take whole ++ '.' :: (if fraction.isEmpty then ['0'] else fraction)

/-- Digits written with an exponent. -/
def scientific (plus : String) (digits : List Char) (lead : Int) : List Char :=
  let tail := digits.drop 1
  digits.take 1 ++ (if tail.isEmpty then [] else '.' :: tail) ++ 'e' ::
    (if 0 ≤ lead then plus.toList ++ Nat.toDigits 10 lead.toNat
      else '-' :: Nat.toDigits 10 (-lead).toNat)

/-- A double in a given style; the infinities are `inf` and `-inf`. -/
def text (style : NumeralStyle) (d : Double) : String :=
  let sign := if d.negative then "-" else ""
  let body :=
    if d.magnitude = infinity then "inf".toList
    else if d.magnitude = 0 then "0.0".toList
    else
      let (digits, lead) := digitsOf (shortest style.tie d.magnitude)
      if style.leastPlain ≤ lead && lead ≤ style.mostPlain then plain digits lead
      else scientific style.plus digits lead
  sign ++ String.ofList body

end Double

end ParLoop
