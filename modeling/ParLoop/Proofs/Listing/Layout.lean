import ParLoop.Proofs.Listing.Accepted
import ParLoop.Proofs.Listing.Placeless
import ParLoop.Proofs.Listing.Rescan

/-!
# Layout does not matter

The texts of the tokens of a listing, written in order with other white space and other comments
between them, give the same tokens again, and the parser reads them in the same way
(`parse_of_layout`).
-/

namespace ParLoop.Listing

open ParLoop.Text

variable {c : Char} {cs gap body rest : List Char}

/-! ### Separators -/

/-- White space and closed comments. -/
inductive Filler : List Char → Prop where
  | nil : Filler []
  | blank {c : Char} {cs : List Char} (hc : isBlank c = true) (h : Filler cs) : Filler (c :: cs)
  | lineComment {body cs : List Char} (hbody : '\n' ∉ body) (h : Filler cs) :
      Filler ('/' :: '/' :: (body ++ '\n' :: cs))
  | blockComment {body cs : List Char} (hbody : ¬['*', '/'] <:+: body ++ ['*']) (h : Filler cs) :
      Filler ('/' :: '*' :: (body ++ '*' :: '/' :: cs))

/-- A line comment ends behind its newline. -/
theorem splitGap_line (hbody : '\n' ∉ body) (cs : List Char) :
    (splitGap .lineComment (body ++ '\n' :: cs)).2 = (splitGap .blank cs).2 := by
  induction body with
  | nil => rw [List.nil_append, splitGap_of_next .blank rfl]
  | cons c body ih =>
    obtain ⟨hc, hbody⟩ := not_or.1 (fun h => hbody (List.mem_cons.2 h))
    have hnext : GapState.next c (body ++ '\n' :: cs).head? .lineComment = some .lineComment :=
      congrArg some (if_neg (Ne.symm hc))
    rw [List.cons_append, splitGap_of_next _ hnext, ih hbody]

/-- A block comment ends where it is closed first. Behind a star, it goes on unless a slash comes
next. -/
theorem splitGap_block (hbody : ¬['*', '/'] <:+: body ++ ['*']) (cs : List Char) :
    (splitGap .blockComment (body ++ '*' :: '/' :: cs)).2 = (splitGap .blank cs).2 ∧
      (body.head? ≠ some '/' →
        (splitGap .star (body ++ '*' :: '/' :: cs)).2 = (splitGap .blank cs).2) := by
  induction body with
  | nil =>
    have hslash : (splitGap .star ('/' :: cs)).2 = (splitGap .blank cs).2 := by
      rw [splitGap_of_next .blank rfl]
    constructor
    · rw [List.nil_append, splitGap_of_next .star rfl, hslash]
    · intro _
      rw [List.nil_append, splitGap_of_next .star rfl, hslash]
  | cons c body ih =>
    rw [List.cons_append, List.infix_cons_iff, not_or] at hbody
    obtain ⟨hinside, hstar⟩ := ih hbody.2
    rw [List.cons_append]
    by_cases hc : c = '*'
    · subst hc
      have hhead : body.head? ≠ some '/' := by
        intro hslash
        obtain ⟨ds, rfl⟩ := List.head?_eq_some_iff.1 hslash
        exact hbody.1 ⟨ds ++ ['*'], rfl⟩
      constructor
      · rw [splitGap_of_next .star rfl, hstar hhead]
      · intro _
        rw [splitGap_of_next .star rfl, hstar hhead]
    · constructor
      · have hnext : GapState.next c (body ++ '*' :: '/' :: cs).head? .blockComment =
            some .blockComment := congrArg some (if_neg hc)
        rw [splitGap_of_next _ hnext, hinside]
      · intro hslash
        have hc' : c ≠ '/' := fun h => hslash (congrArg some h)
        have hnext : GapState.next c (body ++ '*' :: '/' :: cs).head? .star =
            some .blockComment := by
          rw [GapState.next, if_neg hc', if_neg hc]
        rw [splitGap_of_next _ hnext, hinside]

/-- Separators are skipped. -/
theorem lexemes_filler (h : Filler gap) (cs : List Char) : lexemes (gap ++ cs) = lexemes cs := by
  refine lexemes_congr ?_
  induction h with
  | nil => rfl
  | @blank c gap hc _ ih =>
    have hnext : GapState.next c (gap ++ cs).head? .blank = some .blank := by
      rw [GapState.next, if_pos hc]
    rw [List.cons_append, splitGap_of_next _ hnext, ih]
  | @lineComment body gap hbody _ ih =>
    rw [List.cons_append, splitGap_of_next .lineComment rfl, List.cons_append,
      splitGap_of_next .lineComment rfl, List.append_assoc, List.cons_append,
      splitGap_line hbody, ih]
  | @blockComment body gap hbody _ ih =>
    rw [List.cons_append, splitGap_of_next .opening rfl, List.cons_append,
      splitGap_of_next .blockComment rfl, List.append_assoc, List.cons_append, List.cons_append,
      (splitGap_block hbody _).1, ih]

/-! ### Layouts -/

/-- A text that holds some words in order, between separators. Behind each word stands white space,
or the text ends. -/
inductive Layout : List String → List Char → Prop where
  | nil {gap : List Char} (hgap : Filler gap) : Layout [] gap
  | cons {gap : List Char} {word : String} {words : List String} {rest : List Char}
      (hgap : Filler gap) (h : Layout words rest) (hrest : Apart rest) :
      Layout (word :: words) (gap ++ word.toList ++ rest)

/-- What is scanned at some place behind a gap. -/
def IsLexeme (x : Except ScanCause TokenKind × List Char) : Prop :=
  ∃ c cs, GapState.next c cs.head? .blank = none ∧ scanLexeme c cs = x

/-- What is scanned ends with the end of the text, and only with it. -/
theorem exists_lexemes (cs : List Char) :
    ∃ front, lexemes cs = front ++ [(.ok .endOfText, [])] ∧ ∀ x ∈ front, IsLexeme x := by
  unfold lexemes
  fun_induction pieces cs with
  | case1 cs cut hcut => exact ⟨[], rfl, fun x hx => absurd hx List.not_mem_nil⟩
  | case2 cs cut c rest hcut outcome text hscan ih =>
    obtain ⟨front, hfront, hall⟩ := ih
    refine ⟨(outcome, text) :: front, by rw [List.map_cons, hfront]; rfl, fun x hx => ?_⟩
    obtain rfl | hx := List.mem_cons.1 hx
    · exact ⟨c, rest, next_of_splitGap hcut, hscan⟩
    · exact hall x hx

/-- Tokens that were scanned once are scanned again in every layout. -/
theorem lexemes_layout {ls : List Lexeme} (hls : ∀ l ∈ ls, IsLexeme (.ok l.1, l.2))
    (h : Layout (ls.map (fun l => String.ofList l.2) ++ [""]) cs) :
    lexemes cs = (ls ++ [(TokenKind.endOfText, [])]).map fun l : Lexeme => (.ok l.1, l.2) := by
  induction ls generalizing cs with
  | nil =>
    cases h with
    | cons hgap hend _ =>
      cases hend with
      | nil hfiller =>
        rw [List.append_assoc, lexemes_filler hgap]
        have hskip := lexemes_filler hfiller []
        rw [List.append_nil, lexemes_nil] at hskip
        exact hskip
  | cons l ls ih =>
    cases h with
    | cons hgap hrest hapart =>
      obtain ⟨c, ds, hnext, hscan⟩ := hls l List.mem_cons_self
      rw [List.append_assoc, lexemes_filler hgap, String.toList_ofList,
        lexemes_again hnext hscan hapart, ih (fun m hm => hls m (List.mem_cons_of_mem l hm)) hrest]
      rfl

/-! ### Tokens -/

theorem lexemes_of_place {p : Position} {qs : List Piece} {ts : List Token}
    (h : place p qs = ts.map .ok) :
    qs.map (fun q => (q.outcome, q.text)) = (ts.map Token.lexeme).map fun l => (.ok l.1, l.2) := by
  induction qs generalizing p ts with
  | nil =>
    rw [place, eq_comm, List.map_eq_nil_iff] at h
    rw [h]
    rfl
  | cons q qs ih =>
    rw [place] at h
    obtain ⟨t, ts, rfl, ht, hts⟩ := List.map_eq_cons_iff.1 h.symm
    obtain ⟨gap, text, outcome⟩ := q
    cases outcome with
    | error cause => cases ht
    | ok kind =>
      cases ht
      rw [List.map_cons, ih hts.symm, List.map_cons, List.map_cons, Token.lexeme,
        String.toList_ofList]

theorem alike_of_lexemes {ts us : List Token} (h : ts.map Token.lexeme = us.map Token.lexeme) :
    Alike (ts.map .ok) (us.map .ok) := by
  induction ts generalizing us with
  | nil =>
    rw [List.map_nil, eq_comm, List.map_eq_nil_iff] at h
    rw [h]
    exact .nil
  | cons t ts ih =>
    obtain ⟨u, us', rfl, hlexeme, htail⟩ := List.map_eq_cons_iff.1 h.symm
    obtain ⟨kind, text, span⟩ := t
    obtain ⟨kind', text', span'⟩ := u
    obtain ⟨rfl, htext⟩ := Prod.mk.inj hlexeme
    obtain rfl := String.toList_injective htext
    exact .cons kind' text' span span' (ih htail.symm)

/-- The tokens of a text without faults were scanned one by one, and the end comes last. -/
theorem exists_of_tokenize {s : String} {ts : List Token} (h : tokenize s = .ok ts) :
    ∃ ls : List Lexeme, ts.map Token.lexeme = ls ++ [(.endOfText, [])] ∧
      ∀ l ∈ ls, IsLexeme (.ok l.1, l.2) := by
  have hlexemes : lexemes s.toList = _ := lexemes_of_place (tokenize_eq_ok_iff.1 h)
  obtain ⟨front, hfront, hall⟩ := exists_lexemes s.toList
  rw [hlexemes] at hfront
  obtain ⟨ls, ms, hts, rfl, hms⟩ := List.map_eq_append_iff.1 hfront
  obtain ⟨⟨kind, text⟩, rfl, hend⟩ := List.map_eq_singleton_iff.1 hms
  cases hend
  exact ⟨ls, hts, fun l hl => hall _ (List.mem_map_of_mem hl)⟩

/-- **Other separators give the same tokens.** -/
theorem tokenize_layout {s s' : String} {ts : List Token} (h : tokenize s = .ok ts)
    (hlayout : Layout (ts.map Token.text) s'.toList) :
    ∃ us, tokenize s' = .ok us ∧ us.map Token.lexeme = ts.map Token.lexeme := by
  obtain ⟨ls, hls, hall⟩ := exists_of_tokenize h
  have htexts : ts.map Token.text = ls.map (fun l => String.ofList l.2) ++ [""] := by
    have htext : (fun t : Token => String.ofList t.lexeme.2) = Token.text :=
      funext fun t => String.ofList_toList
    have hmap := congrArg (List.map fun l : Lexeme => String.ofList l.2) hls
    rw [List.map_map, List.map_append] at hmap
    exact (congrArg (List.map · ts) htext).symm.trans hmap
  rw [htexts] at hlayout
  obtain ⟨us, hus, hlexemes⟩ := exists_tokens_of_place (lexemes_layout hall hlayout) .start
  exact ⟨us, tokenize_eq_ok_iff.2 hus, hlexemes.trans hls.symm⟩

/-- **Layout does not matter.** The texts of the tokens of a listing, written in order with any
white space and closed comments around them, give tokens of the same kinds and texts, and are read
as the same program, or with a fault of the same cause that names the same text. -/
theorem parse_of_layout {s s' : String} {ts : List Token} (h : tokenize s = .ok ts)
    (hlayout : Layout (ts.map Token.text) s'.toList) :
    (∃ us, tokenize s' = .ok us ∧ us.map Token.lexeme = ts.map Token.lexeme) ∧
      ((∃ p, parse s = .ok p ∧ parse s' = .ok p) ∨
        ∃ cause span span' found, parse s = .error (.parse ⟨cause, span, found⟩) ∧
          parse s' = .error (.parse ⟨cause, span', found⟩)) := by
  obtain ⟨us, hus, hlexemes⟩ := tokenize_layout h hlayout
  refine ⟨⟨us, hus, hlexemes⟩, ?_⟩
  have hagree := placeless_program _ _ (alike_of_lexemes hlexemes.symm)
  rw [← tokenize_eq_ok_iff.1 h, ← tokenize_eq_ok_iff.1 hus] at hagree
  unfold parse StateT.run
  generalize program (scan s) = x at hagree ⊢
  generalize program (scan s') = y at hagree ⊢
  cases hagree with
  | @ok r r' hr => exact Or.inl ⟨r.1, rfl, congrArg Except.ok hr.1.symm⟩
  | fault cause span span' found => exact Or.inr ⟨cause, span, span', found, rfl, rfl⟩

/-- A quotient with a comment between the slash and the divisor. -/
theorem parse_of_layout_quotient :
    let s := "loop i=1 to 8/2\x7b\x7d"
    let s' := "loop i = 1 to 8 / // half of it\n2 /* nothing */\x7b \x7d\t"
    ∃ ts, tokenize s = .ok ts ∧ Layout (ts.map Token.text) s'.toList ∧
      (∃ us, tokenize s' = .ok us ∧ us.map Token.lexeme = ts.map Token.lexeme) ∧
      ((∃ p, parse s = .ok p ∧ parse s' = .ok p) ∨
        ∃ cause span span' found, parse s = .error (.parse ⟨cause, span, found⟩) ∧
          parse s' = .error (.parse ⟨cause, span', found⟩)) := by
  intro s s'
  obtain ⟨ts, hts⟩ : ∃ ts, tokenize s = .ok ts := Outcome.exists_of_isOk (by decide +kernel)
  have htexts : ts.map Token.text =
      ["loop", "i", "=", "1", "to", "8", "/", "2", "\x7b", "\x7d", ""] := by
    have hmap : (tokenize s).toOption.map (List.map Token.text) =
        some ["loop", "i", "=", "1", "to", "8", "/", "2", "\x7b", "\x7d", ""] := by decide +kernel
    rw [hts] at hmap
    exact Option.some.inj hmap
  have hlayout : Layout (ts.map Token.text) s'.toList := by
    have hblank : Filler [' '] := .blank (by decide) .nil
    have hline : Filler " // half of it\n".toList :=
      .blank (by decide) (@Filler.lineComment " half of it".toList [] (by decide) .nil)
    have hblock : Filler " /* nothing */".toList :=
      .blank (by decide) (@Filler.blockComment " nothing ".toList [] (by decide) .nil)
    have hcs : s'.toList = [] ++ "loop".toList ++ ([' '] ++ "i".toList ++ ([' '] ++ "=".toList ++
      ([' '] ++ "1".toList ++ ([' '] ++ "to".toList ++ ([' '] ++ "8".toList ++ ([' '] ++
      "/".toList ++ (" // half of it\n".toList ++ "2".toList ++ (" /* nothing */".toList ++
      "\x7b".toList ++ ([' '] ++ "\x7d".toList ++ (['\t'] ++ "".toList ++ [])))))))))) := by decide
    rw [htexts, hcs]
    have hspace (cs : List Char) : Apart (' ' :: cs) := rfl
    refine .cons .nil ?_ (hspace _)
    iterate 6 refine .cons hblank ?_ (hspace _)
    refine .cons hline (.cons hblock (.cons hblank ?_ rfl) (hspace _)) (hspace _)
    exact .cons (.blank (by decide) .nil) (.nil .nil) trivial
  exact ⟨ts, hts, hlayout, parse_of_layout hts hlayout⟩

end ParLoop.Listing
