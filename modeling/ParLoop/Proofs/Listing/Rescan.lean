import Mathlib.Data.List.Find
import ParLoop.Proofs.Listing.Numerals
import ParLoop.Proofs.Listing.Tiles

/-!
# Tokens are scanned again as themselves

The text of a token, put before white space or at the end of a text, is scanned as the same token
(`scanLexeme_again`): a symbol is not taken for the beginning of a longer one, a slash does not open
a comment, a word and a number end where they ended.
-/

namespace ParLoop.Listing

open ParLoop.Text

variable {c : Char} {cs rest text : List Char}

/-! ### White space -/

/-- The codes of white space. -/
def blankCodes : List Nat :=
  List.range' 9 5 ++ [0x20, 0x85, 0xa0, 0x1680] ++ List.range' 0x2000 11 ++
    [0x2028, 0x2029, 0x202f, 0x205f, 0x3000]

theorem toNat_mem_blankCodes (h : isBlank c = true) : c.toNat ∈ blankCodes := by
  simp only [isBlank, Bool.or_eq_true, Bool.and_eq_true, decide_eq_true_eq, beq_iff_eq] at h
  simp only [blankCodes, List.mem_append, List.mem_range'_1, List.mem_cons, List.not_mem_nil,
    or_false]
  omega

/-- White space neither goes on with a name nor with a number. -/
theorem stops_of_isBlank (h : isBlank c = true) (cs : List Char) : stops (c :: cs) = true := by
  have hall : ∀ n ∈ blankCodes, stops [Char.ofNat n] = true := by decide +kernel
  have hc := hall c.toNat (toNat_mem_blankCodes h)
  rw [Char.ofNat_toNat] at hc
  exact hc

/-- A text is empty or begins with white space. -/
def Apart : List Char → Prop
  | [] => True
  | c :: _ => isBlank c = true

theorem Apart.stops (h : Apart rest) : stops rest = true := by
  cases rest with
  | nil => rfl
  | cons c cs => exact stops_of_isBlank h cs

/-! ### Symbols -/

theorem isBlank_of_mem_symbol {k : TokenKind} (hk : k ∈ TokenKind.symbols)
    (hc : c ∈ k.name.toList) : isBlank c = false := by
  have hall : ∀ k ∈ TokenKind.symbols, (k.name.toList.all fun c => !isBlank c) = true := by decide
  simpa using List.all_eq_true.1 (hall k hk) c hc

/-- A symbol before white space begins with the symbols with which it begins alone. -/
theorem isPrefixOf_append_of_apart {j : TokenKind} (hj : j ∈ TokenKind.symbols)
    (hrest : Apart rest) :
    j.name.toList.isPrefixOf (text ++ rest) = j.name.toList.isPrefixOf text := by
  rw [Bool.eq_iff_iff, List.isPrefixOf_iff_prefix, List.isPrefixOf_iff_prefix]
  refine ⟨fun h => ?_, fun h => h.trans (List.prefix_append text rest)⟩
  obtain ⟨ds, hds⟩ := h
  obtain ⟨as, rfl, -⟩ | ⟨bs, hname, hbs⟩ := List.append_eq_append_iff.1 hds
  · exact List.prefix_append _ _
  · cases bs with
    | nil => exact ⟨[], by rw [hname]; simp⟩
    | cons b bs =>
      have hblank : isBlank b = true := by
        rw [hbs] at hrest
        exact hrest
      rw [isBlank_of_mem_symbol hj (by rw [hname]; simp)] at hblank
      cases hblank

theorem find?_symbols_again {k : TokenKind} (hk : k ∈ TokenKind.symbols) (hrest : Apart rest) :
    (TokenKind.symbols.find? fun j => j.name.toList.isPrefixOf (k.name.toList ++ rest)) =
      some k := by
  have halone : ∀ k ∈ TokenKind.symbols,
      (TokenKind.symbols.find? fun j => j.name.toList.isPrefixOf k.name.toList) = some k := by
    decide
  rw [← halone k hk]
  exact List.find?_congr fun j hj => isPrefixOf_append_of_apart hj hrest

/-! ### Numbers -/

/-- A fraction is empty, or a point and digits. -/
theorem fractionOf_cases (cs : List Char) : fractionOf cs = [] ∨
    ∃ d ds, (d :: ds).all Char.isDigit = true ∧ fractionOf cs = '.' :: d :: ds := by
  unfold fractionOf
  split
  case h_1 d ds =>
    split
    case isTrue hd =>
      refine Or.inr ⟨d, ds.takeWhile Char.isDigit, ?_, by rw [List.takeWhile_cons, if_pos hd]⟩
      rw [List.all_cons, hd, List.all_takeWhile]
      rfl
    case isFalse => exact Or.inl rfl
  case h_2 => exact Or.inl rfl

/-- A fraction ends where neither a digit nor a point follows. -/
theorem fractionOf_again (cs : List Char)
    (hrest : ∀ d ds, rest = d :: ds → d.isDigit = false ∧ d ≠ '.') :
    fractionOf (fractionOf cs ++ rest) = fractionOf cs := by
  obtain hnone | ⟨d, ds, hdigits, hsome⟩ := fractionOf_cases cs
  · rw [hnone, List.nil_append]
    obtain h | ⟨d, ds, -, h⟩ := fractionOf_cases rest
    · exact h
    · -- A fraction would begin with a point.
      unfold fractionOf at h
      split at h
      case h_1 => exact absurd rfl (hrest _ _ rfl).2
      case h_2 => cases h
  · have hd : d.isDigit = true := List.all_eq_true.1 hdigits d List.mem_cons_self
    have htake := takeWhile_isDigit hdigits fun e es h => (hrest e es h).1
    rw [hsome, List.cons_append, List.cons_append, fractionOf, if_pos hd]
    exact congrArg _ htake

/-- An exponent is a mark, perhaps a sign, and digits. -/
theorem exponentOf_eq_present (h : Exponent.of cs = .present text) :
    ∃ e sign digits, (e = 'e' ∨ e = 'E') ∧ sign ∈ [[], ['+'], ['-']] ∧ digits ≠ [] ∧
      digits.all Char.isDigit = true ∧ text = e :: (sign ++ digits) := by
  unfold Exponent.of at h
  split at h
  case h_2 => cases h
  case h_1 e ds =>
    dsimp only at h
    split at h
    case isFalse => cases h
    case isTrue he =>
      split at h
      case isTrue => cases h
      case isFalse hne =>
        cases h
        refine ⟨e, signOf ds, _, he, ?_, by simpa using hne, List.all_takeWhile, rfl⟩
        unfold signOf
        split
        · split
          case isTrue hsign => obtain rfl | rfl := hsign <;> decide
          case isFalse => exact List.mem_cons_self
        · exact List.mem_cons_self

theorem exponentOf_again (h : Exponent.of cs = .present text) (hrest : stops rest = true) :
    Exponent.of (text ++ rest) = .present text := by
  obtain ⟨e, sign, digits, he, hsign, hne, hdigits, rfl⟩ := exponentOf_eq_present h
  obtain ⟨d, ds, rfl⟩ := List.exists_cons_of_ne_nil hne
  have hd : d.isDigit = true := List.all_eq_true.1 hdigits d List.mem_cons_self
  have hfirst : ¬(d = '+' ∨ d = '-') := by
    rintro (rfl | rfl) <;> exact absurd hd (by decide)
  have hsignOf : signOf (sign ++ (d :: ds ++ rest)) = sign := by
    simp only [List.mem_cons, List.not_mem_nil, or_false] at hsign
    obtain rfl | rfl | rfl := hsign
    · exact if_neg hfirst
    · rfl
    · rfl
  have htake : (d :: ds ++ rest).takeWhile Char.isDigit = d :: ds := by
    refine takeWhile_isDigit hdigits ?_
    rintro b bs rfl
    exact (ne_of_stops hrest).1
  simp only [Exponent.of, List.cons_append, List.append_assoc, if_pos he]
  rw [← List.cons_append, hsignOf, List.drop_left, htake]
  rfl

/-- The parts of a number: digits, a fraction, and perhaps an exponent. -/
theorem scanNumber_eq_ok {k : TokenKind} (h : scanNumber cs = (.ok k, text)) :
    ∃ exponent, text = cs.takeWhile Char.isDigit ++
        fractionOf (cs.drop (cs.takeWhile Char.isDigit).length) ++ exponent ∧
      (exponent = [] ∧ k = (if (fractionOf
          (cs.drop (cs.takeWhile Char.isDigit).length)).isEmpty then .integer else .float) ∨
        k = .float ∧ ∃ ds, Exponent.of ds = .present exponent) := by
  unfold scanNumber at h
  dsimp only at h
  split at h
  case h_1 =>
    refine ⟨[], ?_⟩
    rw [List.append_nil]
    split at h
    · split at h <;> cases h
      exact ⟨rfl, Or.inl ⟨rfl, rfl⟩⟩
    · cases h
      exact ⟨rfl, Or.inl ⟨rfl, rfl⟩⟩
  case h_2 exponent hexponent =>
    refine ⟨exponent, ?_⟩
    split at h
    · split at h <;> cases h
      exact ⟨rfl, Or.inr ⟨rfl, _, hexponent⟩⟩
    · cases h
      exact ⟨rfl, Or.inr ⟨rfl, _, hexponent⟩⟩
  case h_3 => cases h

/-- Behind a fraction stands neither a digit nor a point. -/
theorem head_exponent {exponent : List Char} {d : Char} {ds : List Char}
    (hexponent : exponent = [] ∨ ∃ es, Exponent.of es = .present exponent)
    (hrest : stops rest = true) (h : exponent ++ rest = d :: ds) : d.isDigit = false ∧ d ≠ '.' := by
  obtain rfl | ⟨es, hes⟩ := hexponent
  · rw [List.nil_append] at h
    rw [h] at hrest
    exact ⟨(ne_of_stops hrest).1, (ne_of_stops hrest).2.1⟩
  · obtain ⟨e, sign, digits, he, -, -, -, rfl⟩ := exponentOf_eq_present hes
    cases h
    obtain rfl | rfl := he <;> decide

/-- Behind the digits of a number stands no digit. -/
theorem head_fractionOf {d : Char} {ds : List Char}
    (hrest : ∀ d ds, rest = d :: ds → d.isDigit = false ∧ d ≠ '.')
    (h : fractionOf cs ++ rest = d :: ds) : d.isDigit = false := by
  obtain hnone | ⟨e, es, -, hsome⟩ := fractionOf_cases cs
  · rw [hnone] at h
    exact (hrest d ds h).1
  · rw [hsome] at h
    cases h
    decide

/-- A number ends where nothing goes on with it. -/
theorem scanNumber_again {k : TokenKind} (h : scanNumber cs = (.ok k, text))
    (hrest : stops rest = true) : scanNumber (text ++ rest) = (.ok k, text) := by
  obtain ⟨exponent, rfl, hkind⟩ := scanNumber_eq_ok h
  have hhead (d : Char) (ds : List Char) (hds : exponent ++ rest = d :: ds) :
      d.isDigit = false ∧ d ≠ '.' :=
    head_exponent (hkind.imp And.left And.right) hrest hds
  have hall : (cs.takeWhile Char.isDigit).all Char.isDigit = true := List.all_takeWhile
  generalize cs.takeWhile Char.isDigit = whole at hall hkind ⊢
  generalize hcut : cs.drop whole.length = tail at hkind ⊢
  have hfirst (d : Char) (ds : List Char) (hds : fractionOf tail ++ (exponent ++ rest) = d :: ds) :
      d.isDigit = false := head_fractionOf hhead hds
  have hwhole := takeWhile_isDigit hall hfirst
  have hfraction := fractionOf_again tail hhead
  have hletter (d : Char) (ds : List Char) (hds : rest = d :: ds) : isNameStart d = false := by
    rw [hds] at hrest
    exact (ne_of_stops hrest).2.2.1
  have hmantissa : (whole ++ (fractionOf tail ++ (exponent ++ rest))).drop
      (whole ++ fractionOf tail).length = exponent ++ rest := by
    rw [← List.append_assoc, List.drop_left]
  unfold scanNumber
  simp only [List.append_assoc, hwhole, List.drop_left, hfraction, hmantissa]
  obtain ⟨rfl, rfl⟩ | ⟨rfl, es, hes⟩ := hkind
  · rw [List.nil_append, exponentOf_rest hrest]
    cases rest with
    | nil => simp
    | cons d ds => simp [hletter d ds rfl]
  · have hend : (whole ++ (fractionOf tail ++ (exponent ++ rest))).drop
        (whole ++ (fractionOf tail ++ exponent)).length = rest := by
      simp only [← List.append_assoc, List.drop_left]
    rw [exponentOf_again hes hrest]
    simp only [hend]
    cases rest with
    | nil => rfl
    | cons d ds => simp [hletter d ds rfl]

/-! ### Lexemes -/

/-- The text of a token is scanned as the same token before white space. -/
theorem scanLexeme_again {k : TokenKind} (h : scanLexeme c cs = (.ok k, text))
    (hrest : Apart rest) :
    ∃ tail, text = c :: tail ∧ scanLexeme c (tail ++ rest) = (.ok k, text) := by
  obtain ⟨hne, ds, hds⟩ := isPrefix_scanLexeme c cs
  rw [h] at hne hds
  obtain ⟨d, tail, rfl⟩ := List.exists_cons_of_ne_nil hne
  obtain ⟨rfl, htail⟩ := List.cons.inj hds
  refine ⟨tail, rfl, ?_⟩
  unfold scanLexeme at h ⊢
  split at h
  case h_1 j hfind =>
    have hj := List.mem_of_find?_eq_some hfind
    have hname : j.name.toList = d :: tail := congrArg Prod.snd h
    have hagain := find?_symbols_again hj hrest
    rw [hname, List.cons_append] at hagain
    rw [hagain]
    exact h
  case h_2 hfind =>
    split at h
    case isTrue => cases h
    case isFalse hbang =>
      split at h
      case isTrue hdigit =>
        have hagain := scanNumber_again h hrest.stops
        rw [List.cons_append] at hagain
        rw [find?_symbols (isNamePart_of_isDigit hdigit), if_neg hbang, if_pos hdigit, hagain]
      case isFalse hdigit =>
        split at h
        case isTrue hstart =>
          obtain ⟨rfl, rfl⟩ : TokenKind.ofWord (d :: cs.takeWhile isNamePart) = k ∧
              cs.takeWhile isNamePart = tail := by
            simpa using h
          have htake := takeWhile_append_of_stops (fun _ h => h)
            (List.all_takeWhile : (cs.takeWhile isNamePart).all isNamePart = true) hrest.stops
          rw [find?_symbols (isNamePart_of_isNameStart hstart), if_neg hbang, if_neg hdigit,
            if_pos hstart, htake]
        case isFalse => cases h

/-- What is no gap where a token was found is none before white space. -/
theorem next_blank_again {k : TokenKind} {tail : List Char}
    (hgap : GapState.next c cs.head? .blank = none) (h : scanLexeme c cs = (.ok k, c :: tail))
    (hrest : Apart rest) : GapState.next c (tail ++ rest).head? .blank = none := by
  have hblank : isBlank c = false := by
    refine eq_false_of_ne_true fun hc => ?_
    rw [GapState.next, if_pos hc] at hgap
    cases hgap
  by_cases hslash : c = '/'
  · -- A slash is a token of its own, and white space does not make it a comment.
    subst hslash
    obtain rfl : tail = [] := by
      have hscan : scanLexeme '/' cs = (.ok .slash, ['/']) := rfl
      rw [hscan] at h
      cases h
      rfl
    have hhead (d : Char) (hd : isBlank d = false) : rest.head? ≠ some d := by
      intro hsome
      obtain ⟨ds, rfl⟩ := List.head?_eq_some_iff.1 hsome
      have hblank : isBlank d = true := hrest
      rw [hblank] at hd
      cases hd
    rw [GapState.next, if_neg (by decide), if_neg fun h => hhead '/' (by decide) h.2,
      if_neg fun h => hhead '*' (by decide) h.2]
  · rw [GapState.next, hblank, if_neg Bool.false_ne_true, if_neg fun h => hslash h.1,
      if_neg fun h => hslash h.1]

/-- **A token before white space is scanned as itself**, whatever stood behind it where it was
found. -/
theorem lexemes_again {k : TokenKind} (hgap : GapState.next c cs.head? .blank = none)
    (h : scanLexeme c cs = (.ok k, text)) (hrest : Apart rest) :
    lexemes (text ++ rest) = (.ok k, text) :: lexemes rest := by
  obtain ⟨tail, rfl, hagain⟩ := scanLexeme_again h hrest
  exact lexemes_cons (next_blank_again hgap h hrest) hagain

end ParLoop.Listing
