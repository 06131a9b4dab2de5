import Mathlib.Tactic.FinCases
import ParLoop.Listing.Scan

/-!
# How texts are cut into tokens

`lexemes` is the sequence of the kinds and texts that are scanned, without gaps and places. A text
that ends where the next character cannot go on with its last token is cut in the same way whatever
follows (`Spells`), and one that ends with a token of its own is cut so before everything
(`SpellsAny`). Texts with these properties can be put together.
-/

namespace ParLoop.Listing

open ParLoop.Text

variable {c : Char} {cs ds rest : List Char}

/-! ### Characters -/

theorem isNamePart_of_isNameStart (h : isNameStart c = true) : isNamePart c = true := by
  rw [isNameStart, Bool.or_eq_true, Bool.or_eq_true] at h
  rw [isNamePart, Bool.or_eq_true]
  obtain (hstart | hline) | hdollar := h
  · exact Or.inl (isXidContinue_of_isXidStart hstart)
  · rw [beq_iff_eq.1 hline]
    exact Or.inl (by decide)
  · exact Or.inr hdollar

theorem toNat_of_isDigit (h : c.isDigit = true) : 48 ≤ c.toNat ∧ c.toNat ≤ 57 := by
  simpa [Char.isDigit, UInt32.le_iff_toNat_le] using h

theorem isNamePart_of_isDigit (h : c.isDigit = true) : isNamePart c = true := by
  have hrange := toNat_of_isDigit h
  rw [isNamePart, isXidContinue, if_pos (by omega), Char.isAlphanum, h]
  simp

/-- The characters of the first 128 that begin a name are letters, the underscore and the dollar
sign. -/
theorem toNat_of_isNameStart (h : isNameStart c = true) (hc : c.toNat < 128) :
    65 ≤ c.toNat ∧ c.toNat ≤ 90 ∨ 97 ≤ c.toNat ∧ c.toNat ≤ 122 ∨ c.toNat = 95 ∨ c.toNat = 36 := by
  rw [isNameStart, isXidStart, if_pos hc, Bool.or_eq_true, Bool.or_eq_true, beq_iff_eq,
    beq_iff_eq] at h
  unfold Char.isAlpha Char.isUpper Char.isLower at h
  simp only [Bool.or_eq_true, Bool.and_eq_true, decide_eq_true_eq, UInt32.le_iff_toNat_le,
    ge_iff_le] at h
  obtain (hletter | rfl) | rfl := h
  · have hletter : 65 ≤ c.toNat ∧ c.toNat ≤ 90 ∨ 97 ≤ c.toNat ∧ c.toNat ≤ 122 := hletter
    omega
  · decide
  · decide

theorem isDigit_of_isNameStart (h : isNameStart c = true) : c.isDigit = false := by
  by_contra hdigit
  have hrange := toNat_of_isDigit (eq_true_of_ne_false hdigit)
  have hstart := toNat_of_isNameStart h (by omega)
  omega

/-- No range of name characters holds a blank. -/
theorem isBlank_of_isNameStart (h : isNameStart c = true) : isBlank c = false := by
  by_contra hblank
  simp only [isBlank, Bool.or_eq_true, Bool.and_eq_true, decide_eq_true_eq, beq_iff_eq,
    Bool.not_eq_false] at hblank
  by_cases hc : c.toNat < 128
  · have hstart := toNat_of_isNameStart h hc
    omega
  · have hne : (c == '_') = false ∧ (c == '$') = false := by
      constructor <;>
      · refine beq_false_of_ne ?_
        rintro rfl
        exact hc (by decide)
    rw [isNameStart, isXidStart, if_neg hc, hne.1, hne.2, Bool.or_false, Bool.or_false] at h
    have hspaces : ∀ k < 11, inRanges startRanges (0x2000 + k) = false := by decide +kernel
    have hothers : ∀ n ∈ [0x85, 0xa0, 0x1680, 0x2028, 0x2029, 0x202f, 0x205f, 0x3000],
        inRanges startRanges n = false := by decide +kernel
    by_cases hspace : 0x2000 ≤ c.toNat ∧ c.toNat ≤ 0x200a
    · have hk := hspaces (c.toNat - 0x2000) (by omega)
      rw [Nat.add_sub_cancel' hspace.1, h] at hk
      cases hk
    · have hascii : ¬(9 ≤ c.toNat ∧ c.toNat ≤ 13) ∧ c.toNat ≠ 32 := by omega
      rw [hothers c.toNat (by simpa [hspace, hascii, or_assoc] using hblank)] at h
      cases h

theorem isBlank_of_isDigit (h : c.isDigit = true) : isBlank c = false := by
  have hrange := toNat_of_isDigit h
  by_contra hblank
  simp only [isBlank, Bool.or_eq_true, Bool.and_eq_true, decide_eq_true_eq, beq_iff_eq,
    Bool.not_eq_false] at hblank
  omega

/-! ### Lexemes -/

/-- A kind of tokens and the characters of one. -/
abbrev Lexeme := TokenKind × List Char

/-- What is scanned, without gaps and places. -/
def lexemes (cs : List Char) : List (Except ScanCause TokenKind × List Char) :=
  (pieces cs).map fun p => (p.outcome, p.text)

theorem lexemes_of_end (h : (splitGap .blank cs).2 = []) :
    lexemes cs = [(.ok .endOfText, [])] := by
  rw [lexemes, pieces]
  split
  case h_1 => rfl
  case h_2 hcut =>
    rw [h] at hcut
    cases hcut

theorem lexemes_of_cons (h : (splitGap .blank cs).2 = c :: rest) :
    lexemes cs = scanLexeme c rest ::
      lexemes (rest.drop ((scanLexeme c rest).2.length - 1)) := by
  rw [lexemes, pieces]
  split
  case h_1 hcut =>
    rw [h] at hcut
    cases hcut
  case h_2 hcut =>
    rw [h] at hcut
    cases hcut
    rfl

@[simp]
theorem lexemes_nil : lexemes [] = [(.ok .endOfText, [])] := lexemes_of_end rfl

/-- What is scanned behind a gap depends on what follows the gap only. -/
theorem lexemes_congr (h : (splitGap .blank cs).2 = (splitGap .blank ds).2) :
    lexemes cs = lexemes ds := by
  cases hds : (splitGap .blank ds).2 with
  | nil => rw [lexemes_of_end hds, lexemes_of_end (h.trans hds)]
  | cons c rest => rw [lexemes_of_cons hds, lexemes_of_cons (h.trans hds)]

theorem lexemes_blank (hc : isBlank c = true) (cs : List Char) :
    lexemes (c :: cs) = lexemes cs := by
  refine lexemes_congr ?_
  have hnext : GapState.next c cs.head? .blank = some .blank := by rw [GapState.next, if_pos hc]
  rw [splitGap, hnext]

/-- A token in front of a text that does not begin with a gap. -/
theorem lexemes_cons {k : TokenKind} (hgap : GapState.next c (cs ++ rest).head? .blank = none)
    (h : scanLexeme c (cs ++ rest) = (.ok k, c :: cs)) :
    lexemes (c :: cs ++ rest) = (.ok k, c :: cs) :: lexemes rest := by
  have hcut : (splitGap .blank (c :: (cs ++ rest))).2 = c :: (cs ++ rest) := by
    rw [splitGap, hgap]
  rw [List.cons_append, lexemes_of_cons hcut, h]
  simp

/-! ### Texts that are cut in one way -/

/-- Whether a text begins with a character that can neither go on with a name nor with a number, or
is empty. -/
def stops : List Char → Bool
  | [] => true
  | c :: _ => !isNamePart c && c != '.'

/-- Characters that are cut into given tokens before every text that stops names and numbers. -/
def Spells (cs : List Char) (ls : List Lexeme) : Prop :=
  ∀ rest, stops rest = true →
    lexemes (cs ++ rest) = ls.map (fun l => (.ok l.1, l.2)) ++ lexemes rest

/-- Characters that are cut into given tokens before every text. -/
def SpellsAny (cs : List Char) (ls : List Lexeme) : Prop :=
  ∀ rest, lexemes (cs ++ rest) = ls.map (fun l => (.ok l.1, l.2)) ++ lexemes rest

section

variable {ls ms : List Lexeme}

theorem stops_append (hcs : stops cs = true) (hrest : stops rest = true) :
    stops (cs ++ rest) = true := by
  cases cs with
  | nil => exact hrest
  | cons c cs => exact hcs

theorem spellsAny_nil : SpellsAny [] [] := fun _ => rfl

theorem SpellsAny.spells (h : SpellsAny cs ls) : Spells cs ls := fun rest _ => h rest

theorem SpellsAny.blank (hc : isBlank c = true) (h : SpellsAny cs ls) : SpellsAny (c :: cs) ls := by
  intro rest
  rw [List.cons_append, lexemes_blank hc, h]

theorem SpellsAny.append (hcs : SpellsAny cs ls) (hds : SpellsAny ds ms) :
    SpellsAny (cs ++ ds) (ls ++ ms) := by
  intro rest
  rw [List.append_assoc, hcs, hds, List.map_append, List.append_assoc]

theorem SpellsAny.append_spells (hcs : SpellsAny cs ls) (hds : Spells ds ms) :
    Spells (cs ++ ds) (ls ++ ms) := by
  intro rest hrest
  rw [List.append_assoc, hcs, hds rest hrest, List.map_append, List.append_assoc]

theorem Spells.append (hcs : Spells cs ls) (hds : Spells ds ms) (hstops : stops ds = true) :
    Spells (cs ++ ds) (ls ++ ms) := by
  intro rest hrest
  rw [List.append_assoc, hcs _ (stops_append hstops hrest), hds rest hrest, List.map_append,
    List.append_assoc]

/-- A text that ends with a token of its own. -/
theorem Spells.append_cons (hcs : Spells cs ls) (hds : SpellsAny (c :: ds) ms)
    (hstops : stops [c] = true) : SpellsAny (cs ++ c :: ds) (ls ++ ms) := by
  intro rest
  have hrest : stops (c :: ds ++ rest) = true := hstops
  rw [List.append_assoc, hcs _ hrest, hds, List.map_append, List.append_assoc]

end

/-! ### Symbols -/

/-- The symbols that are not the beginning of another one. -/
def solitarySymbols : List TokenKind :=
  [.minus, .question, .leftParen, .rightParen, .leftBracket, .rightBracket, .leftBrace, .rightBrace,
    .comma, .semicolon, .colon]

theorem spellsAny_solitary (k : TokenKind) (hk : k ∈ solitarySymbols) :
    SpellsAny k.name.toList [(k, k.name.toList)] := by
  intro rest
  fin_cases hk <;> exact lexemes_cons rfl rfl

/-- Before a blank every symbol is cut off. -/
theorem spellsAny_symbol (k : TokenKind) (hk : k ∈ TokenKind.symbols) :
    SpellsAny (k.name.toList ++ [' ']) [(k, k.name.toList)] := by
  intro rest
  have hcut : lexemes (k.name.toList ++ ' ' :: rest) =
      (.ok k, k.name.toList) :: lexemes (' ' :: rest) := by
    fin_cases hk <;> exact lexemes_cons rfl rfl
  rw [List.append_assoc, List.singleton_append, hcut, lexemes_blank (by decide)]
  rfl

/-- No symbol begins with a character of a name or of a number. -/
theorem find?_symbols (hc : isNamePart c = true) (cs : List Char) :
    (TokenKind.symbols.find? fun k => k.name.toList.isPrefixOf (c :: cs)) = none := by
  have hheads : ∀ k ∈ TokenKind.symbols, (k.name.toList.head?.map isNamePart) = some false := by
    decide
  rw [List.find?_eq_none]
  intro k hk hbegins
  have hhead := hheads k hk
  cases hname : k.name.toList with
  | nil =>
    rw [hname] at hhead
    cases hhead
  | cons d ds =>
    rw [hname, List.isPrefixOf, Bool.and_eq_true, beq_iff_eq] at hbegins
    rw [hname, hbegins.1, List.head?_cons, Option.map_some, hc] at hhead
    cases hhead

/-- A character of a name or of a number does not begin a gap. -/
theorem next_blank_eq_none (hc : isNamePart c = true) (hblank : isBlank c = false)
    (ahead : Option Char) : GapState.next c ahead .blank = none := by
  have hslash : c ≠ '/' := by
    rintro rfl
    exact absurd hc (by decide)
  simp [GapState.next, hblank, hslash]

/-! ### Words -/

theorem takeWhile_append_of_stops {p : Char → Bool} (hp : ∀ c, p c = true → isNamePart c = true)
    (hcs : cs.all p = true) (hrest : stops rest = true) : (cs ++ rest).takeWhile p = cs := by
  have hhead : rest.takeWhile p = [] := by
    cases rest with
    | nil => rfl
    | cons c rest =>
      have hc : p c = false := by
        refine eq_false_of_ne_true fun hc => ?_
        rw [stops, hp c hc] at hrest
        cases hrest
      rw [List.takeWhile_cons, hc]
      rfl
  rw [List.takeWhile_append_of_pos (List.all_eq_true.1 hcs), hhead, List.append_nil]

/-- A word is cut off before everything that does not go on with it. -/
theorem spells_word (hc : isNameStart c = true) (hcs : cs.all isNamePart = true) :
    Spells (c :: cs) [(.ofWord (c :: cs), c :: cs)] := by
  intro rest hrest
  have hpart := isNamePart_of_isNameStart hc
  refine lexemes_cons (next_blank_eq_none hpart (isBlank_of_isNameStart hc) _) ?_
  have hbang : c ≠ '!' := by
    rintro rfl
    exact absurd hc (by decide)
  rw [scanLexeme, find?_symbols hpart]
  simp only [hbang, if_false, isDigit_of_isNameStart hc, Bool.false_eq_true, hc, if_true]
  rw [takeWhile_append_of_stops (fun _ h => h) hcs hrest]

/-- A keyword is cut off before a blank. -/
theorem spellsAny_keyword (k : TokenKind) (hk : k ∈ TokenKind.keywords) :
    SpellsAny (k.name.toList ++ [' ']) [(k, k.name.toList)] := by
  have hblank : SpellsAny [' '] [] := spellsAny_nil.blank (by decide)
  have hword : Spells k.name.toList [(k, k.name.toList)] := by
    fin_cases hk <;> exact spells_word (by decide) (by decide)
  exact hword.append_cons hblank (by decide)

/-! ### Names -/

/-- A word that is no keyword. -/
def IsName (x : String) : Prop :=
  ∃ c cs, x.toList = c :: cs ∧ isNameStart c = true ∧ cs.all isNamePart = true ∧
    TokenKind.ofWord (c :: cs) = .identifier

theorem IsName.spells {x : String} (h : IsName x) : Spells x.toList [(.identifier, x.toList)] := by
  obtain ⟨c, cs, hx, hc, hcs, hword⟩ := h
  have hspells := spells_word hc hcs
  rwa [hword, ← hx] at hspells

theorem kind_of_scanNumber {text : List Char} {k : TokenKind} (h : scanNumber cs = (.ok k, text)) :
    k = .integer ∨ k = .float := by
  unfold scanNumber at h
  dsimp only at h
  split at h
  · have hkind : ∀ b : Bool, (if b then TokenKind.integer else .float) = .integer ∨
        (if b then TokenKind.integer else .float) = .float := by decide
    split at h
    · split at h <;> cases h
      exact hkind _
    · cases h
      exact hkind _
  · split at h
    · split at h <;> cases h
      exact Or.inr rfl
    · cases h
      exact Or.inr rfl
  · cases h

theorem isName_of_scanLexeme {text : List Char} (h : scanLexeme c cs = (.ok .identifier, text)) :
    IsName (.ofList text) := by
  unfold scanLexeme at h
  split at h
  case h_1 k hfind =>
    cases h
    exact absurd (List.mem_of_find?_eq_some hfind) (by decide)
  case h_2 =>
    split at h
    case isTrue => cases h
    case isFalse =>
      split at h
      case isTrue => obtain h | h := kind_of_scanNumber h <;> cases h
      case isFalse =>
        split at h
        case isTrue hc =>
          rw [Prod.mk.injEq, Except.ok.injEq] at h
          obtain ⟨hword, rfl⟩ := h
          exact ⟨c, _, String.toList_ofList, hc, List.all_takeWhile, hword⟩
        case isFalse => cases h

/-! ### Places -/

/-- The kind and the characters of a token. -/
def Token.lexeme (t : Token) : Lexeme := (t.kind, t.text.toList)

theorem outcome_of_mem_pieces {q : Piece} (h : q ∈ pieces cs) :
    q.outcome = .ok .endOfText ∨ ∃ c rest, scanLexeme c rest = (q.outcome, q.text) := by
  fun_induction pieces cs with
  | case1 cs cut hcut =>
    rw [List.mem_singleton.1 h]
    exact Or.inl rfl
  | case2 cs cut c rest hcut outcome text hscan ih =>
    obtain rfl | hq := List.mem_cons.1 h
    · exact Or.inr ⟨c, rest, hscan⟩
    · exact ih hq

theorem exists_piece_of_mem_place {p : Position} {qs : List Piece} {t : Token}
    (h : .ok t ∈ place p qs) :
    ∃ q ∈ qs, q.outcome = .ok t.kind ∧ t.text = String.ofList q.text := by
  induction qs generalizing p with
  | nil => cases h
  | cons q qs ih =>
    rw [place] at h
    obtain heq | hrest := List.mem_cons.1 h
    · cases hq : q.outcome with
      | error e =>
        rw [hq] at heq
        cases heq
      | ok k =>
        rw [hq] at heq
        cases heq
        exact ⟨q, List.mem_cons_self, hq, rfl⟩
    · obtain ⟨q', hmem, hq'⟩ := ih hrest
      exact ⟨q', List.mem_cons_of_mem _ hmem, hq'⟩

/-- The identifiers of a text are names. -/
theorem isName_of_mem_scan {text : String} {t : Token} (h : .ok t ∈ scan text)
    (ht : t.kind = .identifier) : IsName t.text := by
  obtain ⟨q, hq, houtcome, htext⟩ := exists_piece_of_mem_place h
  rw [ht] at houtcome
  obtain hend | ⟨c, rest, hscan⟩ := outcome_of_mem_pieces hq
  · rw [houtcome] at hend
    cases hend
  · rw [houtcome] at hscan
    rw [htext]
    exact isName_of_scanLexeme hscan

theorem exists_tokens_of_place {qs : List Piece} {ls : List Lexeme}
    (h : qs.map (fun q => (q.outcome, q.text)) = ls.map fun l => (.ok l.1, l.2)) (p : Position) :
    ∃ ts : List Token, place p qs = ts.map .ok ∧ ts.map Token.lexeme = ls := by
  induction qs generalizing ls p with
  | nil =>
    rw [List.map_nil, eq_comm, List.map_eq_nil_iff] at h
    exact ⟨[], rfl, h.symm⟩
  | cons q qs ih =>
    obtain _ | ⟨l, ls⟩ := ls
    · cases h
    · rw [List.map_cons, List.map_cons, List.cons.injEq, Prod.mk.injEq] at h
      obtain ⟨⟨houtcome, htext⟩, hrest⟩ := h
      obtain ⟨ts, hts, hls⟩ := ih hrest ((p.after q.gap).after q.text)
      refine ⟨⟨l.1, String.ofList q.text, p.after q.gap, (p.after q.gap).after q.text⟩ :: ts,
        ?_, ?_⟩
      · rw [place, houtcome, List.map_cons, hts]
      · rw [List.map_cons, hls, Token.lexeme, String.toList_ofList, htext]

/-- The tokens of a text, and the end behind them. -/
theorem exists_tokens_of_spells {text : String} {ls : List Lexeme}
    (h : SpellsAny text.toList ls) : ∃ (ts : List Token) (last : Token),
      scan text = ts.map .ok ++ [.ok last] ∧ ts.map Token.lexeme = ls ∧
        last.kind = .endOfText := by
  have hlexemes := h []
  rw [List.append_nil, lexemes_nil] at hlexemes
  have hpieces : (pieces text.toList).map (fun q => (q.outcome, q.text)) =
      (ls ++ [(TokenKind.endOfText, [])]).map fun l : Lexeme => (.ok l.1, l.2) := by
    rw [List.map_append]
    exact hlexemes
  obtain ⟨us, hus, hls⟩ := exists_tokens_of_place hpieces .start
  obtain ⟨ts, vs, rfl, hts, hvs⟩ := List.map_eq_append_iff.1 hls
  obtain ⟨last, rfl, hlast⟩ := List.map_eq_singleton_iff.1 hvs
  refine ⟨ts, last, ?_, hts, congrArg Prod.fst hlast⟩
  rw [scan, hus, List.map_append, List.map_singleton]

end ParLoop.Listing
