import ParLoop.Listing.Parse
import ParLoop.Proofs.Listing.Lexemes

/-!
# Numerals

A numeral is made of digits, a fraction and an exponent, of which the last two may be missing. It is
scanned as one token (`spells_numeral`), and it has the value that its parts say
(`digitsValue_toDigits`, `decimalValue_numeral`).
-/

namespace ParLoop.Listing

open ParLoop.Text

variable {whole fraction rest ds : List Char}

/-! ### Values of digits -/

theorem digitsValue_eq_ofDigitChars (ds : List Char) :
    digitsValue ds = Nat.ofDigitChars 10 ds 0 :=
  Nat.ofDigitChars_eq_foldl.symm

@[simp]
theorem digitsValue_toDigits (n : Nat) : digitsValue (Nat.toDigits 10 n) = n := by
  rw [digitsValue_eq_ofDigitChars, Nat.ofDigitChars_ten_toDigits]

theorem all_isDigit_toDigits (n : Nat) : (Nat.toDigits 10 n).all Char.isDigit = true :=
  List.all_eq_true.2 fun _ hc => Nat.isDigit_of_mem_toDigits (by decide) (by decide) hc

/-! ### The parts of a numeral -/

/-- A fraction of given digits. -/
def pointed (fraction : List Char) : List Char :=
  if fraction.isEmpty then [] else '.' :: fraction

theorem isEmpty_pointed (fraction : List Char) :
    (pointed fraction).isEmpty = fraction.isEmpty := by
  cases fraction with
  | nil => rfl
  | cons d ds => rfl

/-- An exponent with a sign and given digits. -/
def raised (exponent : Option (Bool × List Char)) : List Char :=
  exponent.elim [] fun e => 'e' :: ((if e.1 then ['-'] else []) ++ e.2)

/-- The value of an exponent. -/
def exponentValue (exponent : Option (Bool × List Char)) : Int :=
  exponent.elim 0 fun e => if e.1 then -digitsValue e.2 else digitsValue e.2

/-- A numeral with a fraction and an exponent. -/
def numeral (whole fraction : List Char) (exponent : Option (Bool × List Char)) : List Char :=
  whole ++ (pointed fraction ++ raised exponent)

/-- An exponent has digits, and nothing else. -/
def IsExponent (exponent : Option (Bool × List Char)) : Prop :=
  ∀ e ∈ exponent, e.2 ≠ [] ∧ e.2.all Char.isDigit = true

theorem takeWhile_isDigit (hds : ds.all Char.isDigit = true)
    (hrest : ∀ c cs, rest = c :: cs → c.isDigit = false) :
    (ds ++ rest).takeWhile Char.isDigit = ds := by
  have hhead : rest.takeWhile Char.isDigit = [] := by
    cases rest with
    | nil => rfl
    | cons c cs => rw [List.takeWhile_cons, hrest c cs rfl]; rfl
  rw [List.takeWhile_append_of_pos (List.all_eq_true.1 hds), hhead, List.append_nil]

/-- What stops names and numbers does not begin with a digit, a point or a letter. -/
theorem ne_of_stops {c : Char} {cs : List Char} (h : stops (c :: cs) = true) :
    c.isDigit = false ∧ c ≠ '.' ∧ isNameStart c = false ∧ c ≠ 'e' ∧ c ≠ 'E' := by
  rw [stops, Bool.and_eq_true, Bool.not_eq_true', bne_iff_ne] at h
  refine ⟨eq_false_of_ne_true fun hd => ?_, h.2, eq_false_of_ne_true fun hs => ?_, ?_, ?_⟩
  · rw [isNamePart_of_isDigit hd] at h
    cases h.1
  · rw [isNamePart_of_isNameStart hs] at h
    cases h.1
  · rintro rfl
    exact absurd h.1 (by decide)
  · rintro rfl
    exact absurd h.1 (by decide)

/-- A digit is no sign, and no mark of an exponent. -/
theorem ne_of_isDigit {d : Char} (hd : d.isDigit = true) :
    d ≠ '+' ∧ d ≠ '-' ∧ d ≠ 'e' ∧ d ≠ 'E' := by
  refine ⟨?_, ?_, ?_, ?_⟩ <;>
  · rintro rfl
    exact absurd hd (by decide)

variable {exponent : Option (Bool × List Char)}

/-- Behind the fraction no digit follows, and no point. -/
theorem head_raised (hrest : stops rest = true) {c : Char} {cs : List Char}
    (h : raised exponent ++ rest = c :: cs) : c.isDigit = false ∧ c ≠ '.' := by
  cases exponent with
  | none =>
    have h : rest = c :: cs := h
    rw [h] at hrest
    exact ⟨(ne_of_stops hrest).1, (ne_of_stops hrest).2.1⟩
  | some e =>
    cases h
    exact ⟨by decide, by decide⟩

/-- Behind the digits no digit follows. -/
theorem head_pointed (hrest : stops rest = true) {c : Char} {cs : List Char}
    (h : pointed fraction ++ (raised exponent ++ rest) = c :: cs) : c.isDigit = false := by
  cases fraction with
  | nil => exact (head_raised hrest h).1
  | cons d ds =>
    cases h
    decide

theorem fractionOf_pointed (hfraction : fraction.all Char.isDigit = true)
    (hrest : stops rest = true) :
    fractionOf (pointed fraction ++ (raised exponent ++ rest)) = pointed fraction := by
  cases fraction with
  | nil =>
    show fractionOf (raised exponent ++ rest) = []
    cases hcs : raised exponent ++ rest with
    | nil => rfl
    | cons c cs =>
      have hc := (head_raised hrest hcs).2
      unfold fractionOf
      split
      case h_1 heq =>
        cases heq
        exact absurd rfl hc
      case h_2 => rfl
  | cons d ds =>
    have hd : d.isDigit = true := List.all_eq_true.1 hfraction d List.mem_cons_self
    have hdigits : (d :: ds ++ (raised exponent ++ rest)).takeWhile Char.isDigit = d :: ds :=
      takeWhile_isDigit hfraction fun c cs h => (head_raised hrest h).1
    show fractionOf ('.' :: d :: (ds ++ (raised exponent ++ rest))) = '.' :: d :: ds
    rw [fractionOf, if_pos hd]
    exact congrArg _ hdigits

theorem exponentOf_raised {e : Bool × List Char} (he : IsExponent (some e))
    (hrest : stops rest = true) :
    Exponent.of (raised (some e) ++ rest) = .present (raised (some e)) := by
  obtain ⟨hne, hdigits⟩ := he e rfl
  obtain ⟨negative, ds⟩ := e
  have htake : (ds ++ rest).takeWhile Char.isDigit = ds := by
    refine takeWhile_isDigit hdigits ?_
    rintro c cs rfl
    exact (ne_of_stops hrest).1
  have hempty : ds.isEmpty = false := List.isEmpty_eq_false_iff.2 hne
  cases negative with
  | true =>
    show Exponent.of ('e' :: '-' :: (ds ++ rest)) = .present ('e' :: '-' :: ds)
    simp [Exponent.of, signOf, htake, hempty]
  | false =>
    show Exponent.of ('e' :: (ds ++ rest)) = .present ('e' :: ds)
    have hsign : signOf (ds ++ rest) = [] := by
      obtain _ | ⟨d, ds⟩ := ds
      · exact absurd rfl hne
      · have hd : d.isDigit = true := List.all_eq_true.1 hdigits d List.mem_cons_self
        obtain ⟨hplus, hminus, -, -⟩ := ne_of_isDigit hd
        rw [List.cons_append, signOf, if_neg (not_or.2 ⟨hplus, hminus⟩)]
    simp [Exponent.of, hsign, htake, hempty]

theorem exponentOf_rest (hrest : stops rest = true) : Exponent.of rest = .absent := by
  cases rest with
  | nil => rfl
  | cons c cs =>
    obtain ⟨-, -, -, he, hE⟩ := ne_of_stops hrest
    rw [Exponent.of, if_neg (not_or.2 ⟨he, hE⟩)]

/-- A numeral with the parts that it is made of is scanned as a whole. -/
theorem scanNumber_numeral (hwhole : whole.all Char.isDigit = true)
    (hfraction : fraction.all Char.isDigit = true) (hexponent : IsExponent exponent)
    (hrest : stops rest = true) :
    scanNumber (numeral whole fraction exponent ++ rest) =
      (.ok (if fraction.isEmpty && exponent.isNone then .integer else .float),
        numeral whole fraction exponent) := by
  have hdigits : (whole ++ (pointed fraction ++ (raised exponent ++ rest))).takeWhile Char.isDigit =
      whole := takeWhile_isDigit hwhole fun c cs h => head_pointed hrest h
  unfold scanNumber numeral
  simp only [List.append_assoc, hdigits, List.drop_left, fractionOf_pointed hfraction hrest]
  have hdrop : (whole ++ (pointed fraction ++ (raised exponent ++ rest))).drop
      (whole ++ pointed fraction).length = raised exponent ++ rest := by
    rw [← List.append_assoc, List.drop_left]
  rw [hdrop]
  -- What follows is no letter, so that the number is not spoilt.
  have hletter (c : Char) (cs : List Char) (h : rest = c :: cs) : isNameStart c = false := by
    rw [h] at hrest
    exact (ne_of_stops hrest).2.2.1
  cases exponent with
  | none =>
    have hraised : raised none = [] := rfl
    rw [hraised, List.nil_append, exponentOf_rest hrest]
    cases rest with
    | nil => simp [isEmpty_pointed]
    | cons c cs => simp [isEmpty_pointed, hletter c cs rfl]
  | some e =>
    have hdrop : (whole ++ (pointed fraction ++ (raised (some e) ++ rest))).drop
        (whole ++ (pointed fraction ++ raised (some e))).length = rest := by
      simp only [← List.append_assoc, List.drop_left]
    rw [exponentOf_raised hexponent hrest]
    simp only [hdrop]
    cases rest with
    | nil => simp
    | cons c cs => simp [hletter c cs rfl]

/-- A numeral is cut off before everything that does not go on with it. -/
theorem spells_numeral (hne : whole ≠ []) (hwhole : whole.all Char.isDigit = true)
    (hfraction : fraction.all Char.isDigit = true) (hexponent : IsExponent exponent) :
    Spells (numeral whole fraction exponent)
      [(if fraction.isEmpty && exponent.isNone then .integer else .float,
        numeral whole fraction exponent)] := by
  intro rest hrest
  have hscan := scanNumber_numeral hwhole hfraction hexponent hrest
  obtain _ | ⟨d, ds⟩ := whole
  · exact absurd rfl hne
  · have hd : d.isDigit = true := List.all_eq_true.1 hwhole d List.mem_cons_self
    have hpart := isNamePart_of_isDigit hd
    have hbang : d ≠ '!' := by
      rintro rfl
      exact absurd hd (by decide)
    refine lexemes_cons (next_blank_eq_none hpart (isBlank_of_isDigit hd) _) ?_
    rw [scanLexeme, find?_symbols hpart]
    simp only [hbang, if_false, hd, if_true]
    exact hscan

theorem spells_integer (n : Nat) :
    Spells (Nat.toDigits 10 n) [(.integer, Nat.toDigits 10 n)] := by
  have h : IsExponent none := fun _ h => absurd h (by simp)
  have hspells := @spells_numeral _ [] _ (@Nat.toDigits_ne_nil n 10) (all_isDigit_toDigits n) rfl h
  simpa [numeral, pointed, raised] using hspells

/-! ### Values of numerals -/

/-- From the first mark on there is the exponent. -/
theorem dropWhile_numeral (hwhole : whole.all Char.isDigit = true)
    (hfraction : fraction.all Char.isDigit = true) :
    (numeral whole fraction exponent).dropWhile (fun c => c ≠ 'e' ∧ c ≠ 'E') =
      raised exponent := by
  have hdigit {c : Char} (hc : c.isDigit = true) : decide (c ≠ 'e' ∧ c ≠ 'E') = true :=
    decide_eq_true (ne_of_isDigit hc).2.2
  have hbefore : ∀ c ∈ whole ++ pointed fraction, decide (c ≠ 'e' ∧ c ≠ 'E') = true := by
    intro c hc
    obtain hc | hc := List.mem_append.1 hc
    · exact hdigit (List.all_eq_true.1 hwhole c hc)
    · cases fraction with
      | nil => cases hc
      | cons d ds =>
        obtain rfl | hc := List.mem_cons.1 hc
        · decide
        · exact hdigit (List.all_eq_true.1 hfraction c hc)
  rw [numeral, ← List.append_assoc, List.dropWhile_append_of_pos hbefore]
  cases exponent with
  | none => rfl
  | some e => rfl

theorem decimalValue_numeral (hwhole : whole.all Char.isDigit = true)
    (hfraction : fraction.all Char.isDigit = true) (hexponent : IsExponent exponent) :
    decimalValue (numeral whole fraction exponent) =
      ⟨digitsValue (whole ++ fraction), exponentValue exponent - fraction.length⟩ := by
  have hdigits : (numeral whole fraction exponent).takeWhile Char.isDigit = whole := by
    rw [numeral, ← List.append_nil (raised exponent)]
    exact takeWhile_isDigit hwhole fun c cs h => head_pointed rfl h
  have hdrop : (numeral whole fraction exponent).drop whole.length =
      pointed fraction ++ raised exponent := List.drop_left
  have hfractionOf : fractionOf (pointed fraction ++ raised exponent) = pointed fraction := by
    rw [← List.append_nil (raised exponent)]
    exact fractionOf_pointed hfraction rfl
  have hpoint : (pointed fraction).drop 1 = fraction := by
    cases fraction with
    | nil => rfl
    | cons d ds => rfl
  unfold decimalValue
  simp only [hdigits, hdrop, hfractionOf, hpoint, dropWhile_numeral hwhole hfraction]
  cases exponent with
  | none => rfl
  | some e =>
    obtain ⟨negative, ds⟩ := e
    cases negative with
    | true => rfl
    | false =>
      obtain ⟨hne, hdigits⟩ := hexponent _ rfl
      obtain _ | ⟨d, ds⟩ := ds
      · exact absurd rfl hne
      · have hd : d.isDigit = true := List.all_eq_true.1 hdigits d List.mem_cons_self
        -- The first digit is not taken for a sign.
        obtain ⟨hplus, hminus, -, -⟩ := ne_of_isDigit hd
        have hafter : (raised (some (false, d :: ds))).drop 1 = d :: ds := rfl
        rw [hafter]
        split
        case h_1 heq =>
          cases heq
          exact absurd rfl hminus
        case h_2 heq =>
          cases heq
          exact absurd rfl hplus
        case h_3 => rfl

end ParLoop.Listing
