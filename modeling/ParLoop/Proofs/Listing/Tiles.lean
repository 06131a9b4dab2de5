import Mathlib.Data.List.Infix
import ParLoop.Proofs.Listing.Lexemes

/-!
# A text is its gaps and its items

Scanning loses no character: every text is a gap, the text of a token or fault, a gap, and so on up
to a last gap, with the end of the text as the only item that covers nothing (`Tiles`). Gaps are
described by a grammar of their own (`Gap`), which says where a comment ends: a line comment before
the next newline, a block comment behind the first `*/` that does not share its star with the
opening. The places of the items are those found by counting newlines and characters in the text
before them (`Position.behind`). This holds of every text, well formed or not (`scan_tiles`).
-/

namespace ParLoop

/-! ### Places by counting -/

/-- The place behind a text: its newlines are counted, and the characters behind the last one. -/
def Position.behind (cs : List Char) : Position :=
  ⟨cs.count '\n' + 1, (cs.reverse.takeWhile (· ≠ '\n')).length + 1⟩

/-- Going on character by character leads to the place found by counting. -/
theorem Position.after_start (cs : List Char) : Position.start.after cs = .behind cs := by
  induction cs using List.reverseRecOn with
  | nil => rfl
  | append_singleton cs c ih =>
    rw [after_append, ih, after_cons, after_nil, next]
    split
    case isTrue hc =>
      rw [hc]
      simp [behind]
    case isFalse hc => simp [behind, hc]

theorem Position.behind_append (cs ds : List Char) :
    (Position.behind cs).after ds = .behind (cs ++ ds) := by
  rw [← after_start, ← after_append, after_start]

namespace Listing

open ParLoop.Text

variable {c : Char} {cs rest gap text : List Char}

/-! ### Gaps -/

/-- White space and comments before some text. Only at the end of everything a block comment may
stay open, and a line comment go without a newline. -/
inductive Gap (rest : List Char) : List Char → Prop where
  | nil : Gap rest []
  | blank {c : Char} {cs : List Char} (hc : isBlank c = true) (h : Gap rest cs) : Gap rest (c :: cs)
  | lineComment {body cs : List Char} (hbody : '\n' ∉ body)
      (hend : ∀ c ∈ (cs ++ rest).head?, c = '\n') (h : Gap rest cs) :
      Gap rest ('/' :: '/' :: (body ++ cs))
  | blockComment {body cs : List Char} (hbody : ¬['*', '/'] <:+: body ++ ['*']) (h : Gap rest cs) :
      Gap rest ('/' :: '*' :: (body ++ '*' :: '/' :: cs))
  | openComment {body : List Char} (hbody : ¬['*', '/'] <:+: body) (hend : rest = []) :
      Gap rest ('/' :: '*' :: body)

/-- A text that begins with white space or a comment. -/
def BeginsGap (cs : List Char) : Prop :=
  (∃ c ∈ cs.head?, isBlank c = true) ∨ ['/', '/'] <+: cs ∨ ['/', '*'] <+: cs

/-- What may be left of a gap inside a line comment. -/
def LineTail (rest gap : List Char) : Prop :=
  ∃ body cs, gap = body ++ cs ∧ '\n' ∉ body ∧ (∀ c ∈ (cs ++ rest).head?, c = '\n') ∧ Gap rest cs

/-- What may be left of a gap inside a block comment. -/
def BlockTail (rest gap : List Char) : Prop :=
  (∃ body cs, gap = body ++ '*' :: '/' :: cs ∧ ¬['*', '/'] <:+: body ++ ['*'] ∧ Gap rest cs) ∨
    rest = [] ∧ ¬['*', '/'] <:+: gap

theorem LineTail.isGap (h : LineTail rest gap) : Gap rest ('/' :: '/' :: gap) := by
  obtain ⟨body, cs, rfl, hbody, hend, hcs⟩ := h
  exact .lineComment hbody hend hcs

theorem BlockTail.isGap (h : BlockTail rest gap) : Gap rest ('/' :: '*' :: gap) := by
  obtain ⟨body, cs, rfl, hbody, hcs⟩ | ⟨hend, hbody⟩ := h
  · exact .blockComment hbody hcs
  · exact .openComment hbody hend

theorem not_closed_cons (hc : ¬(c = '*' ∧ cs.head? = some '/')) (h : ¬['*', '/'] <:+: cs) :
    ¬['*', '/'] <:+: c :: cs := by
  rw [List.infix_cons_iff, not_or]
  refine ⟨fun hbegins => hc ?_, h⟩
  obtain ⟨hstar, ds, rfl⟩ := List.cons_prefix_cons.1 hbegins
  exact ⟨hstar.symm, rfl⟩

/-- A character that does not close a block comment together with the next one belongs to it. -/
theorem BlockTail.cons (h : BlockTail rest gap) (hc : ¬(c = '*' ∧ gap.head? = some '/')) :
    BlockTail rest (c :: gap) := by
  obtain ⟨body, cs, rfl, hbody, hcs⟩ | ⟨hend, hbody⟩ := h
  · have hhead : (body ++ ['*']).head? = (body ++ '*' :: '/' :: cs).head? := by
      cases body <;> rfl
    exact Or.inl ⟨c :: body, cs, rfl, not_closed_cons (hhead ▸ hc) hbody, hcs⟩
  · exact Or.inr ⟨hend, not_closed_cons hc hbody⟩

/-! ### How gaps are cut off -/

theorem splitGap_of_next {state : GapState} (state' : GapState)
    (h : state.next c cs.head? = some state') :
    splitGap state (c :: cs) = (c :: (splitGap state' cs).1, (splitGap state' cs).2) := by
  rw [splitGap, h]

theorem splitGap_of_next_eq_none {state : GapState} (h : state.next c cs.head? = none) :
    splitGap state (c :: cs) = ([], c :: cs) := by
  rw [splitGap, h]

/-- How a gap goes on between comments. -/
theorem next_blank_eq_some {ahead : Option Char} {state : GapState}
    (h : GapState.next c ahead .blank = some state) :
    isBlank c = true ∧ state = .blank ∨ c = '/' ∧ ahead = some '/' ∧ state = .lineComment ∨
      c = '/' ∧ ahead = some '*' ∧ state = .opening := by
  rw [GapState.next] at h
  split at h
  case isTrue hblank =>
    cases h
    exact Or.inl ⟨hblank, rfl⟩
  case isFalse =>
    split at h
    case isTrue hline =>
      cases h
      exact Or.inr (Or.inl ⟨hline.1, hline.2, rfl⟩)
    case isFalse =>
      split at h
      case isTrue hblock =>
        cases h
        exact Or.inr (Or.inr ⟨hblock.1, hblock.2, rfl⟩)
      case isFalse => cases h

theorem lineTail_splitGap (cs : List Char) (hgap : ∀ ds : List Char, ds.length < cs.length →
    Gap (splitGap .blank ds).2 (splitGap .blank ds).1) :
    LineTail (splitGap .lineComment cs).2 (splitGap .lineComment cs).1 := by
  induction cs with
  | nil => exact ⟨[], [], rfl, by simp, by simp [splitGap], .nil⟩
  | cons c cs ih =>
    by_cases hc : c = '\n'
    · -- The newline is white space behind the comment.
      rw [splitGap_of_next .blank (by rw [GapState.next, if_pos hc]), hc]
      exact ⟨[], '\n' :: _, rfl, by simp, by simp, .blank (by decide) (hgap cs (by simp))⟩
    · rw [splitGap_of_next .lineComment (by rw [GapState.next, if_neg hc])]
      obtain ⟨body, ds, hds, hbody, hend, h⟩ := ih fun ds hds => hgap ds (by simp; omega)
      exact ⟨c :: body, ds, by rw [hds]; rfl, by simp [hbody, Ne.symm hc], hend, h⟩

/-- Behind a star the same is left, with the star in front. -/
theorem blockTail_splitGap (cs : List Char) (hgap : ∀ ds : List Char, ds.length < cs.length →
    Gap (splitGap .blank ds).2 (splitGap .blank ds).1) :
    BlockTail (splitGap .blockComment cs).2 (splitGap .blockComment cs).1 ∧
      BlockTail (splitGap .star cs).2 ('*' :: (splitGap .star cs).1) := by
  induction cs with
  | nil => exact ⟨Or.inr ⟨rfl, by decide⟩, Or.inr ⟨rfl, by decide⟩⟩
  | cons c cs ih =>
    obtain ⟨hblock, hstar⟩ := ih fun ds hds => hgap ds (by simp; omega)
    constructor
    · by_cases hc : c = '*'
      · rw [splitGap_of_next .star (by rw [GapState.next, if_pos hc]), hc]
        exact hstar
      · rw [splitGap_of_next .blockComment (by rw [GapState.next, if_neg hc])]
        exact hblock.cons fun h => hc h.1
    · by_cases hslash : c = '/'
      · rw [splitGap_of_next .blank (by rw [GapState.next, if_pos hslash]), hslash]
        exact Or.inl ⟨[], _, rfl, by decide, hgap cs (by simp)⟩
      · have hopen : ∀ ds : List Char, ¬('*' = '*' ∧ (c :: ds).head? = some '/') := by
          simpa using hslash
        by_cases hc : c = '*'
        · rw [splitGap_of_next .star
            (by rw [GapState.next, if_neg hslash, if_pos hc])]
          refine BlockTail.cons ?_ (hopen _)
          rw [hc]
          exact hstar
        · rw [splitGap_of_next .blockComment
            (by rw [GapState.next, if_neg hslash, if_neg hc])]
          exact (hblock.cons fun h => hc h.1).cons (hopen _)

/-- **What is cut off before an item is a gap.** -/
theorem gap_splitGap (cs : List Char) : Gap (splitGap .blank cs).2 (splitGap .blank cs).1 := by
  induction hn : cs.length using Nat.strongRecOn generalizing cs with
  | ind n ih =>
    -- Both characters that open a comment are read at once, so the induction is on the length.
    have hgap : ∀ ds : List Char, ds.length < cs.length →
        Gap (splitGap .blank ds).2 (splitGap .blank ds).1 :=
      fun ds hds => ih ds.length (hn ▸ hds) ds rfl
    cases cs with
    | nil => exact .nil
    | cons c cs =>
      cases hnext : GapState.next c cs.head? .blank with
      | none =>
        rw [splitGap_of_next_eq_none hnext]
        exact .nil
      | some state =>
        rw [splitGap_of_next _ hnext]
        obtain ⟨hblank, rfl⟩ | ⟨rfl, hahead, rfl⟩ | ⟨rfl, hahead, rfl⟩ := next_blank_eq_some hnext
        · exact .blank hblank (hgap cs (by simp))
        · obtain ⟨ds, rfl⟩ := List.head?_eq_some_iff.1 hahead
          rw [splitGap_of_next .lineComment rfl]
          exact (lineTail_splitGap ds fun es hes => hgap es (by simp; omega)).isGap
        · obtain ⟨ds, rfl⟩ := List.head?_eq_some_iff.1 hahead
          rw [splitGap_of_next .blockComment rfl]
          exact (blockTail_splitGap ds fun es hes => hgap es (by simp; omega)).1.isGap

/-- A gap goes as far as it can: only between comments a character may end it. -/
theorem next_of_splitGap {state : GapState} (h : (splitGap state cs).2 = c :: rest) :
    GapState.next c rest.head? .blank = none := by
  induction cs generalizing state with
  | nil => cases h
  | cons d ds ih =>
    cases hnext : state.next d ds.head? with
    | none =>
      rw [splitGap_of_next_eq_none hnext] at h
      cases h
      cases state with
      | blank => exact hnext
      | _ => cases hnext
    | some state' =>
      rw [splitGap_of_next _ hnext] at h
      exact ih h

theorem not_beginsGap (h : GapState.next c cs.head? .blank = none) : ¬BeginsGap (c :: cs) := by
  rintro (⟨d, hd, hblank⟩ | ⟨ds, hds⟩ | ⟨ds, hds⟩)
  · cases hd
    rw [GapState.next, if_pos hblank] at h
    cases h
  · cases hds
    cases h
  · cases hds
    cases h

/-! ### The characters of an item -/

theorem isPrefix_append_of_drop {as bs : List Char} (has : as <+: cs)
    (hbs : bs <+: cs.drop as.length) : as ++ bs <+: cs := by
  obtain ⟨ds, rfl⟩ := has
  rw [List.drop_left] at hbs
  exact (List.prefix_append_right_inj as).2 hbs

theorem isPrefix_fractionOf (cs : List Char) : fractionOf cs <+: cs := by
  unfold fractionOf
  split
  case h_1 d ds =>
    split
    · exact List.cons_prefix_cons.2 ⟨rfl, List.takeWhile_prefix _⟩
    · exact List.nil_prefix
  case h_2 => exact List.nil_prefix

theorem isPrefix_signOf (cs : List Char) : signOf cs <+: cs := by
  unfold signOf
  split
  case h_1 d ds =>
    split
    · exact List.cons_prefix_cons.2 ⟨rfl, List.nil_prefix⟩
    · exact List.nil_prefix
  case h_2 => exact List.nil_prefix

/-- The characters of an exponent, whether it is one or not. -/
theorem isPrefix_exponent (h : Exponent.of cs = .present text ∨ Exponent.of cs = .broken text) :
    text <+: cs := by
  unfold Exponent.of at h
  split at h
  case h_1 e ds =>
    dsimp only at h
    have hsign := isPrefix_signOf ds
    split at h
    case isTrue =>
      split at h
      case isTrue =>
        obtain h | h := h <;> cases h
        exact List.cons_prefix_cons.2 ⟨rfl, hsign⟩
      case isFalse =>
        obtain h | h := h <;> cases h
        exact List.cons_prefix_cons.2
          ⟨rfl, isPrefix_append_of_drop hsign ( List.takeWhile_prefix _)⟩
    case isFalse => obtain h | h := h <;> cases h
  case h_2 => obtain h | h := h <;> cases h

theorem isPrefix_append_singleton (h : text <+: cs) (hc : cs.drop text.length = c :: rest) :
    text ++ [c] <+: cs := by
  refine isPrefix_append_of_drop h ?_
  rw [hc]
  exact List.cons_prefix_cons.2 ⟨rfl, List.nil_prefix⟩

/-- A number stands at the beginning of the text, with the letter that spoils it, and has all the
digits there. -/
theorem isPrefix_scanNumber (cs : List Char) :
    cs.takeWhile Char.isDigit <+: (scanNumber cs).2 ∧ (scanNumber cs).2 <+: cs := by
  have hmantissa := isPrefix_append_of_drop ( List.takeWhile_prefix (l := cs) Char.isDigit)
    (isPrefix_fractionOf _)
  have hwhole := List.prefix_append (cs.takeWhile Char.isDigit)
    (fractionOf (cs.drop (cs.takeWhile Char.isDigit).length))
  unfold scanNumber
  dsimp only
  split
  case h_1 =>
    split
    case h_1 hdrop =>
      split
      · exact ⟨hwhole.trans (List.prefix_append _ _), isPrefix_append_singleton hmantissa hdrop⟩
      · exact ⟨hwhole, hmantissa⟩
    case h_2 => exact ⟨hwhole, hmantissa⟩
  case h_2 exponent hexponent =>
    have hall := isPrefix_append_of_drop hmantissa (isPrefix_exponent (Or.inl hexponent))
    have hdigits := hwhole.trans (List.prefix_append _ exponent)
    split
    case h_1 hdrop =>
      split
      · exact ⟨hdigits.trans (List.prefix_append _ _), isPrefix_append_singleton hall hdrop⟩
      · exact ⟨hdigits, hall⟩
    case h_2 => exact ⟨hdigits, hall⟩
  case h_3 exponent hexponent =>
    exact ⟨hwhole.trans (List.prefix_append _ exponent),
      isPrefix_append_of_drop hmantissa (isPrefix_exponent (Or.inr hexponent))⟩

/-- **An item covers at least one character**, those at the beginning of the text. -/
theorem isPrefix_scanLexeme (c : Char) (cs : List Char) :
    (scanLexeme c cs).2 ≠ [] ∧ (scanLexeme c cs).2 <+: c :: cs := by
  have hsingle : [c] <+: c :: cs := List.cons_prefix_cons.2 ⟨rfl, List.nil_prefix⟩
  unfold scanLexeme
  split
  case h_1 k hfind =>
    have hnames : ∀ k ∈ TokenKind.symbols, k.name.toList ≠ [] := by decide
    have hbegins := List.find?_some hfind
    exact ⟨hnames k (List.mem_of_find?_eq_some hfind), List.isPrefixOf_iff_prefix.1 hbegins⟩
  case h_2 =>
    split
    case isTrue => exact ⟨List.cons_ne_nil c [], hsingle⟩
    case isFalse =>
      split
      case isTrue hdigit =>
        obtain ⟨hdigits, hbegins⟩ := isPrefix_scanNumber (c :: cs)
        refine ⟨fun hnil => ?_, hbegins⟩
        rw [hnil, List.prefix_nil, List.takeWhile_cons, if_pos hdigit] at hdigits
        cases hdigits
      case isFalse =>
        split
        case isTrue =>
          exact ⟨List.cons_ne_nil _ _, List.cons_prefix_cons.2 ⟨rfl, List.takeWhile_prefix _⟩⟩
        case isFalse => exact ⟨List.cons_ne_nil c [], hsingle⟩

theorem ofWord_ne_endOfText (word : List Char) : TokenKind.ofWord word ≠ .endOfText := by
  unfold TokenKind.ofWord
  cases hfind : TokenKind.keywords.find? fun k => k.name.toList == word with
  | none => decide
  | some k =>
    have hkeywords : ∀ k ∈ TokenKind.keywords, k ≠ .endOfText := by decide
    exact hkeywords k (List.mem_of_find?_eq_some hfind)

/-- The end of the text is no token among others. -/
theorem ne_endOfText_of_scanLexeme {k : TokenKind} (h : scanLexeme c cs = (.ok k, text)) :
    k ≠ .endOfText := by
  unfold scanLexeme at h
  split at h
  case h_1 l hfind =>
    cases h
    have hsymbols : ∀ k ∈ TokenKind.symbols, k ≠ .endOfText := by decide
    exact hsymbols k (List.mem_of_find?_eq_some hfind)
  case h_2 =>
    split at h
    case isTrue => cases h
    case isFalse =>
      split at h
      case isTrue => obtain rfl | rfl := kind_of_scanNumber h <;> decide
      case isFalse =>
        split at h
        case isTrue =>
          cases h
          exact ofWord_ne_endOfText _
        case isFalse => cases h

/-! ### Tiles -/

/-- The items of a text that stands behind another one. Each lies behind a gap, covers at least one
character and has the place that is found by counting; the last one is the end of the text. -/
inductive Tiles : List Char → List Char → List (Except ScanError Token) → Prop where
  | last {before gap : List Char} (hgap : Gap [] gap) :
      Tiles before gap [.ok ⟨.endOfText, "", .behind (before ++ gap), .behind (before ++ gap)⟩]
  | token {before gap text rest : List Char} {kind : TokenKind}
      {items : List (Except ScanError Token)} (hgap : Gap (text ++ rest) gap)
      (hstart : ¬BeginsGap (text ++ rest)) (htext : text ≠ []) (hkind : kind ≠ .endOfText)
      (h : Tiles (before ++ gap ++ text) rest items) :
      Tiles before (gap ++ text ++ rest) (.ok ⟨kind, .ofList text, .behind (before ++ gap),
        .behind (before ++ gap ++ text)⟩ :: items)
  | fault {before gap text rest : List Char} {cause : ScanCause}
      {items : List (Except ScanError Token)} (hgap : Gap (text ++ rest) gap)
      (hstart : ¬BeginsGap (text ++ rest)) (htext : text ≠ [])
      (h : Tiles (before ++ gap ++ text) rest items) :
      Tiles before (gap ++ text ++ rest) (.error ⟨cause, .behind (before ++ gap),
        .behind (before ++ gap ++ text)⟩ :: items)

/-- What a lexeme leaves of the text. -/
theorem append_drop_of_scanLexeme {outcome : Except ScanCause TokenKind}
    (h : scanLexeme c cs = (outcome, text)) : text ++ cs.drop (text.length - 1) = c :: cs := by
  obtain ⟨hne, rest, hrest⟩ := isPrefix_scanLexeme c cs
  rw [h] at hne hrest
  obtain ⟨d, ds, rfl⟩ := List.exists_cons_of_ne_nil hne
  obtain ⟨rfl, rfl⟩ := List.cons.inj hrest
  rw [List.length_cons, Nat.add_sub_cancel]
  exact congrArg (d :: ds ++ ·) List.drop_left

/-- The pieces of a text tile it, wherever it stands. -/
theorem tiles_pieces (before cs : List Char) :
    Tiles before cs (place (.behind before) (pieces cs)) := by
  fun_induction pieces cs generalizing before with
  | case1 cs cut hcut =>
    have hgap : Gap cut.2 cut.1 := gap_splitGap cs
    have hcs : cut.1 ++ cut.2 = cs := splitGap_append .blank cs
    rw [hcut] at hgap
    rw [hcut, List.append_nil] at hcs
    simp only [place, Position.behind_append, List.append_nil]
    rw [← hcs]
    exact .last hgap
  | case2 cs cut c rest hcut outcome text hscan ih =>
    have hgap : Gap cut.2 cut.1 := gap_splitGap cs
    have hcs : cut.1 ++ cut.2 = cs := splitGap_append .blank cs
    have hstart : ¬BeginsGap (c :: rest) := not_beginsGap (next_of_splitGap hcut)
    have hne : text ≠ [] := by
      have := (isPrefix_scanLexeme c rest).1
      rwa [hscan] at this
    rw [hcut, ← append_drop_of_scanLexeme hscan] at hgap hcs
    rw [← append_drop_of_scanLexeme hscan] at hstart
    rw [← List.append_assoc] at hcs
    simp only [place, Position.behind_append]
    rw [← hcs]
    cases outcome with
    | ok kind =>
      exact .token hgap hstart hne (ne_endOfText_of_scanLexeme hscan) (ih _)
    | error cause => exact .fault hgap hstart hne (ih _)

/-- **Scanning loses no character, and its places are right.** Every text, well formed or not, is
the gaps and the texts of its items in turn, and the end of the text comes last and only there. -/
theorem scan_tiles (text : String) : Tiles [] text.toList (scan text) :=
  tiles_pieces [] text.toList

-- The slash behind the opening does not close the comment, and scanning goes on behind a fault.
example : scan "/*/ 1 */2e;" = [.error ⟨.exponentWithoutDigits, ⟨1, 9⟩, ⟨1, 11⟩⟩,
    .ok ⟨.semicolon, ";", ⟨1, 11⟩, ⟨1, 12⟩⟩, .ok ⟨.endOfText, "", ⟨1, 12⟩, ⟨1, 12⟩⟩] := by
  decide +kernel

end Listing

end ParLoop
