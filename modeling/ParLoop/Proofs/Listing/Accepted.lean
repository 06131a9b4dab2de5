import ParLoop.Proofs.Listing.Items

/-!
# The parser accepts its grammar

The tokens of a text end with the end of the text and hold no other one (`scan_eq_append`), and no
phrase of the grammar holds it (`DerivesProgram.within`). So a text is read as a program exactly if
it has no faults and its tokens before the end stand for the program; no tokens stand for two
programs (`parse_eq_ok_iff`).
-/

namespace ParLoop.Listing

variable {ts us : List Token} {es : List Expr} {phrase : Phrase}

/-! ### Phrases -/

/-- The end of the text is not among some tokens. -/
def Within (ts : List Token) : Prop := ∀ t ∈ ts, t.kind ≠ .endOfText

@[simp] theorem within_nil : Within [] := fun _ h => absurd h List.not_mem_nil

@[simp] theorem within_cons {t : Token} : Within (t :: ts) ↔ t.kind ≠ .endOfText ∧ Within ts :=
  List.forall_mem_cons

@[simp] theorem within_append : Within (ts ++ us) ↔ Within ts ∧ Within us := List.forall_mem_append

theorem Derives.within (h : Derives phrase ts es) (hknown : phrase.Known) : Within ts := by
  have hlevels : (Phrase.joined operatorLevels).Known := by
    unfold Phrase.Known
    decide
  induction h with
  | plain _ ih => exact ih hlevels
  | conditional _ hquestion _ hcolon _ ihtest ihtrue ihfalse =>
    simp [hquestion, hcolon, ihtest hlevels, ihtrue trivial, ihfalse trivial]
  | unjoined _ ih => exact ih trivial
  | tighter _ ih => exact ih fun l hl => hknown l (List.mem_cons_of_mem _ hl)
  | operator _ hop _ ihleft ihright =>
    have hright := ihright fun l hl => hknown l (List.mem_cons_of_mem _ hl)
    have hsign := (hknown _ List.mem_cons_self _ (mem_of_lookup_eq_some hop)).1
    rw [within_append, within_cons]
    exact ⟨ihleft hknown, ne_of_mem_of_not_mem hsign (by decide), hright⟩
  | unsigned _ ih => exact ih trivial
  | minus hminus _ ih => simp [hminus, ih trivial]
  | int ht _ | double ht | name ht => simp [ht]
  | call ht hleft _ hright ih => simp [ht, hleft, hright, ih trivial]
  | access ht _ _ ih => simp [ht, ih trivial]
  | paren hleft _ hright ih => simp [hleft, hright, ih trivial]
  | noArguments | noMore | noIndex => exact within_nil
  | argument _ _ ihfirst ihrest => simp [ihfirst trivial, ihrest trivial]
  | more hcomma _ _ ihfirst ihrest => simp [hcomma, ihfirst trivial, ihrest trivial]
  | index hleft _ hright _ ihfirst ihrest =>
    simp [hleft, hright, ihfirst trivial, ihrest trivial]

theorem Repeated.within {α : Type} {form : List Token → α → Prop} {xs : List α}
    (h : Repeated form ts xs) (hform : ∀ us x, form us x → Within us) : Within ts := by
  induction h with
  | nil => exact within_nil
  | cons head _ ih => exact within_append.2 ⟨hform _ _ head, ih⟩

theorem DerivesInstr.within {i : Instr} (h : DerivesInstr ts i) : Within ts := by
  cases h with
  | declare hword hx hsemicolon => simp [hword, hx, hsemicolon]
  | jump hword hl hsemicolon => simp [hword, hl, hsemicolon]
  | branch hword condition hgoto hl hsemicolon =>
    simp [hword, condition.within trivial, hgoto, hl, hsemicolon]
  | call hword hf hleft h hright hsemicolon =>
    simp [hword, hf, hleft, h.within trivial, hright, hsemicolon]
  | label hl hcolon => simp [hl, hcolon]
  | assign hx hequal value hsemicolon => simp [hx, hequal, value.within trivial, hsemicolon]
  | store ha h _ hequal value hsemicolon =>
    simp [ha, h.within trivial, hequal, value.within trivial, hsemicolon]

theorem DerivesBlock.within {body : List Instr} (h : DerivesBlock ts body) : Within ts := by
  obtain ⟨left, us, right, rfl, hleft, hus, hright⟩ := h
  simp [hleft, hright, hus.within fun _ _ => DerivesInstr.within]

theorem within_parameters {xs : List String}
    (h : ts = [] ∧ xs = [] ∨ Separated IsNameToken ts xs) : Within ts := by
  obtain ⟨rfl, -⟩ | ⟨us, vs, x, ys, rfl, -, ⟨t, rfl, ht, -⟩, hys⟩ := h
  · exact within_nil
  · have hvs := hys.within fun us x h => by
      obtain ⟨comma, us, rfl, hcomma, t, rfl, ht, -⟩ := h
      simp [hcomma, ht]
    simp [ht, hvs]

theorem DerivesItem.within {x : Item} (h : DerivesItem ts x) : Within ts := by
  cases h with
  | symbol h =>
    obtain ⟨hword, hx, hcolon, ⟨hv, -⟩, helement, hdimensions, hrebindings, hsemicolon⟩ := h
    have hts := hdimensions.within fun us x h => by
      obtain ⟨left, right, rfl, hleft, hright⟩ := h
      simp [hleft, hright]
    have hus := hrebindings.within fun us x h => by
      obtain ⟨kind, left, value, right, rfl, ⟨hkind, -⟩, hleft, ⟨hvalue, -⟩, hright⟩ := h
      simp [hkind, hleft, hvalue, hright]
    simp [hword, hx, hcolon, hv, helement, hts, hus, hsemicolon]
  | procedure h =>
    obtain ⟨hword, hf, hleft, hparameters, hright, h⟩ := h
    simp [hword, hf, hleft, within_parameters hparameters, hright, h.within]
  | loop h =>
    cases h with
    | unbounded hword hi h => simp [hword, hi, h.within]
    | bounded hword hi hequal hlower hupto hupper h =>
      simp [hword, hi, hequal, hlower.within trivial, hupto, hupper.within trivial, h.within]

theorem DerivesProgram.within {p : Program} (h : DerivesProgram ts p) : Within ts := by
  obtain ⟨items, hitems, -⟩ := h
  exact hitems.within fun _ _ => DerivesItem.within

/-! ### The tokens of a text -/

theorem scanLexeme_ne_endOfText {c : Char} {cs text : List Char} :
    scanLexeme c cs ≠ (.ok .endOfText, text) := by
  intro h
  unfold scanLexeme at h
  split at h
  case h_1 k hfind =>
    -- The end of the text is neither in the table of symbols nor in that of keywords.
    cases h
    exact absurd (List.mem_of_find?_eq_some hfind) (by decide)
  case h_2 =>
    split at h
    case isTrue => cases h
    case isFalse =>
      split at h
      case isTrue => obtain h | h := kind_of_scanNumber h <;> cases h
      case isFalse =>
        split at h
        case isTrue =>
          have hword := Except.ok.inj (congrArg Prod.fst h)
          unfold TokenKind.ofWord at hword
          cases hfind : TokenKind.keywords.find? fun k =>
              k.name.toList == c :: cs.takeWhile isNamePart with
          | none =>
            rw [hfind] at hword
            cases hword
          | some k =>
            rw [hfind] at hword
            cases hword
            exact absurd (List.mem_of_find?_eq_some hfind) (by decide)
        case isFalse => cases h

theorem place_pieces_eq_append (p : Position) (cs : List Char) :
    ∃ (front : Stream) (last : Token), place p (pieces cs) = front ++ [.ok last] ∧
      last.kind = .endOfText ∧ ∀ t, .ok t ∈ front → t.kind ≠ .endOfText := by
  fun_induction pieces cs generalizing p with
  | case1 cs cut hcut => exact ⟨[], _, rfl, rfl, fun t ht => absurd ht List.not_mem_nil⟩
  | case2 cs cut c rest hcut outcome text hscan ih =>
    obtain ⟨front, last, hplace, hlast, hfront⟩ := ih ((p.after cut.1).after text)
    rw [place]
    dsimp only
    rw [hplace]
    refine ⟨_ :: front, last, rfl, hlast, fun t ht => ?_⟩
    obtain ht | ht := List.mem_cons.1 ht
    · cases outcome with
      | error e => cases ht
      | ok k =>
        cases ht
        rintro rfl
        exact scanLexeme_ne_endOfText hscan
    · exact hfront t ht

/-- The end of the text is the last token, and only the last one. -/
theorem scan_eq_append (text : String) :
    ∃ (front : Stream) (last : Token), scan text = front ++ [.ok last] ∧
      last.kind = .endOfText ∧ ∀ t, .ok t ∈ front → t.kind ≠ .endOfText :=
  place_pieces_eq_append .start text.toList

theorem tokenize_eq_ok_iff {text : String} : tokenize text = .ok ts ↔ scan text = ts.map .ok := by
  unfold tokenize
  generalize scan text = s
  induction s generalizing ts with
  | nil =>
    rw [eq_comm, List.mapM_nil]
    show Except.ok ts = Except.ok [] ↔ _
    simp [eq_comm]
  | cons x s ih =>
    rw [List.mapM_cons, Outcome.bind_eq_ok]
    constructor
    · rintro ⟨t, rfl, h⟩
      obtain ⟨us, hus, h⟩ := Outcome.bind_eq_ok.1 h
      cases h
      rw [ih.1 hus]
      rfl
    · intro h
      obtain ⟨t, us, rfl, rfl, hus⟩ := List.map_eq_cons_iff.1 h.symm
      exact ⟨t, rfl, Outcome.bind_eq_ok.2 ⟨us, ih.2 hus.symm, rfl⟩⟩

/-- A text whose tokens are read up to its end has no faults. -/
theorem tokenize_of_scan {text : String} {rest : Stream} (hscan : scan text = ts.map .ok ++ rest)
    (hts : Within ts) {t : Token} (hpeek : peek rest = .ok (t, rest)) (ht : t.kind = .endOfText) :
    tokenize text = .ok (ts ++ [t]) := by
  obtain ⟨front, last, hfront, hlast, hkinds⟩ := scan_eq_append text
  rw [hscan] at hfront
  rw [tokenize_eq_ok_iff, hscan, List.map_append]
  congr 1
  obtain _ | ⟨_ | u, rest⟩ := rest
  · -- the end would be one of the tokens of the phrase
    rw [List.append_nil] at hfront
    have hmem : (.ok last : Except ScanError Token) ∈ ts.map .ok := by simp [hfront]
    obtain ⟨u, hu, heq⟩ := List.mem_map.1 hmem
    exact absurd (Except.ok.inj heq ▸ hlast) (hts u hu)
  · cases hpeek
  · cases hpeek
    obtain rfl | ⟨rest, x, rfl⟩ := List.eq_nil_or_concat rest
    · rfl
    · -- the end would stand before another one
      rw [List.concat_eq_append, ← List.cons_append, ← List.append_assoc] at hfront
      have hinit := (List.append_inj' hfront rfl).1
      exact absurd ht (hkinds t (by simp [← hinit]))

/-- **The parser accepts exactly its grammar.** A text is read as a program if and only if it has no
faults and the tokens before its end stand for the program, and no tokens stand for two programs. -/
theorem parse_eq_ok_iff :
    (∀ (text : String) (p : Program), parse text = .ok p ↔ ∃ ts last,
      tokenize text = .ok (ts ++ [last]) ∧ last.kind = .endOfText ∧ DerivesProgram ts p) ∧
    ∀ (ts : List Token) (p q : Program), DerivesProgram ts p → DerivesProgram ts q → p = q := by
  refine ⟨fun text p => ⟨fun h => ?_, ?_⟩, fun ts p q hp hq => ?_⟩
  · obtain ⟨ts, rest, hscan, hderives, t, hpeek, ht⟩ := derivesProgram_of_parse h
    exact ⟨ts, t, tokenize_of_scan hscan hderives.within hpeek ht, ht, hderives⟩
  · rintro ⟨ts, last, htokens, hlast, hderives⟩
    have hscan := tokenize_eq_ok_iff.1 htokens
    rw [List.map_append] at hscan
    exact parse_of_derivesProgram hscan (next_cons (by rw [hlast]; rfl)) hderives
  · have hend : Next (· == .endOfText) [] := ⟨_, rfl, rfl⟩
    have hread := complete_program ts p hp [] hend
    rw [complete_program ts q hq [] hend] at hread
    cases hread
    rfl

/-- A listing with a symbol, a procedure and a loop with bounds. -/
def halvingListing : String :=
  "symbol a: param double[] init(fresh);\n" ++
  "proc half(x) \x7b y = x * 0.5; \x7d\n" ++
  "loop i = 0 to n \x7b a[i] = i < 3 ? half(i) : i - -1 - y; \x7d"

/-- What `halvingListing` stands for. A minus sign before a literal is part of it, and subtraction
associates to the left. -/
def halvingLoop : Program :=
  ((Program.withBounds (.ofBody "i" [
    .assign (.access "a" [.var "i"]) (.cond (.binary (.compare .lt) (.var "i") (.int 3))
      (.call "half" [.var "i"])
      (.binary .subtract (.binary .subtract (.var "i") (.int (-1))) (.var "y")))])
    (.int 0) (.var "n")).withProcedure
    ⟨"half", ["x"], [.assign (.var "y")
      (.binary .multiply (.var "x") (.double (.ofDecimal false ⟨5, -1⟩)))]⟩).withSymbol
    ⟨"a", .parameter, .named "double", 1, [⟨.initializer, .fresh⟩]⟩

/-- The tokens of `halvingListing` stand for `halvingLoop`, and for nothing else. -/
theorem parse_eq_ok_iff_halvingLoop :
    ∃ ts last, tokenize halvingListing = .ok (ts ++ [last]) ∧ last.kind = .endOfText ∧
      DerivesProgram ts halvingLoop ∧ ∀ q, DerivesProgram ts q → q = halvingLoop := by
  have hparse : parse halvingListing = .ok halvingLoop := by decide +kernel
  obtain ⟨ts, last, htokens, hlast, hp⟩ := (parse_eq_ok_iff.1 _ _).1 hparse
  exact ⟨ts, last, htokens, hlast, hp, fun q hq => parse_eq_ok_iff.2 ts q _ hq hp⟩

end ParLoop.Listing
