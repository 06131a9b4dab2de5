import ParLoop.Listing.Print
import ParLoop.Proofs.Listing.Complete
import ParLoop.Proofs.Listing.Printed

/-!
# Listings of readable programs

A program is readable if its expressions and instructions follow the grammar, its names are names,
its doubles are finite, and its tables hold everything under its own name. What is listed of a
readable program is cut into tokens that stand for it, item by item: its symbols
(`printsAny_symbol`), its procedures (`printsAny_procedure`) and its loop (`printsAny_loop`).
-/

namespace ParLoop

open Listing

/-! ### What can be read -/

/-- An expression that stands for tokens of a text, without infinite doubles. -/
def Expr.Readable (e : Expr) : Prop := (∃ ts, DerivesExpr ts e ∧ Named ts) ∧ e.Finite

/-- An instruction that stands for tokens of a text, without infinite doubles. -/
def Instr.Readable (i : Instr) : Prop :=
  (∃ ts, DerivesInstr ts i ∧ Named ts) ∧ ∀ e ∈ i.expressions, e.Finite

/-- A procedure with names and readable instructions. -/
structure Procedure.Readable (f : Procedure) : Prop where
  name : IsName f.name
  parameters : ∀ x ∈ f.parameters, IsName x
  body : ∀ i ∈ f.body, i.Readable

/-- A symbol whose type is determined by its name. -/
structure Symbol.Readable (s : Symbol) : Prop where
  name : IsName s.name
  elementName : IsName s.element.name
  element : s.element = .named s.element.name

/-- A program of readable parts. -/
structure Program.Readable (p : Program) : Prop where
  counter : IsName p.counter
  bounds : p.lower = none ∧ p.upper = none ∨
    ∃ l u, p.lower = some l ∧ p.upper = some u ∧ l.Readable ∧ u.Readable
  body : ∀ i ∈ p.body, i.Readable
  procedures : ∀ e ∈ p.procedures.entries, e.2.name = e.1 ∧ e.2.Readable
  symbols : ∀ e ∈ p.symbols.entries, e.2.name = e.1 ∧ e.2.Readable

namespace Listing

variable {α : Type} {e : Expr} {x : String} {cs ds : List Char} {form : List Token → α → Prop}

/-! ### Texts that end with a token of their own -/

/-- Characters that are cut into tokens of a form, whatever follows. -/
def PrintsAny (form : List Token → α → Prop) (cs : List Char) (x : α) : Prop :=
  ∃ ls, SpellsAny cs ls ∧ ∀ ts : List Token, ts.map Token.lexeme = ls → form ts x

theorem spellsAny_blanks (hcs : cs.all Text.isBlank = true) : SpellsAny cs [] := by
  induction cs with
  | nil => exact spellsAny_nil
  | cons c cs ih =>
    rw [List.all_cons, Bool.and_eq_true] at hcs
    exact (ih hcs.2).blank hcs.1

theorem PrintsAny.blanks_append {x : α} (hcs : cs.all Text.isBlank = true)
    (h : PrintsAny form ds x) : PrintsAny form (cs ++ ds) x := by
  obtain ⟨ls, hls, hform⟩ := h
  exact ⟨ls, (spellsAny_blanks hcs).append hls, hform⟩

theorem PrintsAny.append_blanks {x : α} (h : PrintsAny form cs x)
    (hds : ds.all Text.isBlank = true) : PrintsAny form (cs ++ ds) x := by
  obtain ⟨ls, hls, hform⟩ := h
  refine ⟨ls, ?_, hform⟩
  have hspells := hls.append (spellsAny_blanks hds)
  rwa [List.append_nil] at hspells

/-- Texts of one form, one behind the other. -/
theorem printsAny_repeated {f : α → List Char} {xs : List α}
    (h : ∀ x ∈ xs, PrintsAny form (f x) x) : PrintsAny (Repeated form) (xs.flatMap f) xs := by
  induction xs with
  | nil =>
    refine ⟨[], spellsAny_nil, fun ts hts => ?_⟩
    rw [List.map_eq_nil_iff.1 hts]
    exact .nil
  | cons x xs ih =>
    obtain ⟨hx, hxs⟩ := List.forall_mem_cons.1 h
    obtain ⟨ls, hls, hform⟩ := hx
    obtain ⟨ms, hms, hforms⟩ := ih hxs
    refine ⟨ls ++ ms, hls.append hms, fun ts hts => ?_⟩
    obtain ⟨us, vs, rfl, hus, hvs⟩ := List.map_eq_append_iff.1 hts
    exact .cons (hform us hus) (hforms vs hvs)

theorem prints_of_readable (h : e.Readable) :
    Prints DerivesExpr e.text.toList e := by
  obtain ⟨⟨ts, hts, hnames⟩, hfinite⟩ := h
  have hprints := prints_of_derives hts hnames trivial (List.forall_mem_singleton.2 hfinite)
  rwa [Phrase.text_singleton rfl] at hprints

/-! ### Instructions -/

theorem spellsAny_semicolon : SpellsAny [';'] [(.semicolon, [';'])] :=
  spellsAny_solitary .semicolon (by decide)

theorem spellsAny_equal : SpellsAny [' ', '=', ' '] [(.equal, ['='])] :=
  spellsAny_between .equal (by decide)

/-- A keyword, a name and a semicolon. -/
theorem printsAny_named {i : Instr} {k : TokenKind} (hk : k ∈ TokenKind.keywords) (hx : IsName x)
    (hform : ∀ word t semicolon : Token, word.kind = k → t.kind = .identifier → t.text = x →
      semicolon.kind = .semicolon → DerivesInstr [word, t, semicolon] i) :
    PrintsAny DerivesInstr (k.name.toList ++ [' '] ++ (x.toList ++ [';'])) i := by
  refine ⟨_, (spellsAny_keyword k hk).append (hx.spells.append_cons spellsAny_semicolon rfl), ?_⟩
  intro ts hts
  obtain ⟨word, us, rfl, hword, -, hus⟩ := exists_of_map_lexeme_eq_cons hts
  obtain ⟨t, vs, rfl, ht, htext, hvs⟩ := exists_of_map_lexeme_eq_cons hus
  obtain ⟨semicolon, ws, rfl, hsemicolon, -, hws⟩ := exists_of_map_lexeme_eq_cons hvs
  obtain rfl := List.map_eq_nil_iff.1 hws
  exact hform word t semicolon hword ht (String.toList_inj.1 htext) hsemicolon

theorem printsAny_branch {c : Expr} {l : String} (hc : Prints DerivesExpr c.text.toList c)
    (hl : IsName l) : PrintsAny DerivesInstr (Instr.branch c l).text.toList (.branch c l) := by
  obtain ⟨lc, hlc, hderives⟩ := hc
  have hif : SpellsAny ['i', 'f', ' '] [(.ifWord, ['i', 'f'])] :=
    spellsAny_keyword .ifWord (by decide)
  have hgoto : SpellsAny [' ', 'g', 'o', 't', 'o', ' '] [(.gotoWord, ['g', 'o', 't', 'o'])] :=
    (spellsAny_keyword .gotoWord (by decide)).blank (by decide)
  have htext : (Instr.branch c l).text.toList = ['i', 'f', ' '] ++ (c.text.toList ++
      ([' ', 'g', 'o', 't', 'o', ' '] ++ (l.toList ++ [';']))) := by
    show ("if " ++ c.text ++ " goto " ++ l ++ ";").toList = _
    simp [String.toList_append]
  rw [htext]
  refine ⟨_, hif.append (hlc.append_cons (hgoto.append (hl.spells.append_cons spellsAny_semicolon
    rfl)) rfl), ?_⟩
  intro ts hts
  obtain ⟨word, us, rfl, hword, -, hus⟩ := exists_of_map_lexeme_eq_cons hts
  obtain ⟨cs, goto, vs, rfl, hcs, hgoto, -, hvs⟩ := exists_of_map_lexeme_eq hus
  obtain ⟨t, ws, rfl, ht, htext, hws⟩ := exists_of_map_lexeme_eq_cons hvs
  obtain ⟨semicolon, xs, rfl, hsemicolon, -, hxs⟩ := exists_of_map_lexeme_eq_cons hws
  obtain rfl := List.map_eq_nil_iff.1 hxs
  cases String.toList_inj.1 htext
  exact .branch hword (hderives cs hcs) hgoto ht hsemicolon

theorem printsAny_call {f : String} {es : List Expr} (hf : IsName f)
    (hes : Prints (Derives .arguments) (Phrase.text .arguments es) es) :
    PrintsAny DerivesInstr (Instr.call f es).text.toList (.call f es) := by
  obtain ⟨ls, hls, hderives⟩ := hes
  have hcall : SpellsAny ['c', 'a', 'l', 'l', ' '] [(.callWord, ['c', 'a', 'l', 'l'])] :=
    spellsAny_keyword .callWord (by decide)
  have hleft : SpellsAny ['('] [(.leftParen, ['('])] := spellsAny_solitary .leftParen (by decide)
  have hright : SpellsAny [')'] [(.rightParen, [')'])] :=
    spellsAny_solitary .rightParen (by decide)
  have htext : (Instr.call f es).text.toList = ['c', 'a', 'l', 'l', ' '] ++ (f.toList ++
      (['('] ++ (Phrase.text .arguments es ++ ([')'] ++ [';'])))) := by
    show ("call " ++ (f ++ "(" ++ ", ".intercalate (Expr.textList es) ++ ")") ++ ";").toList = _
    simp [String.toList_append, Expr.textList_eq, Phrase.text]
  rw [htext]
  refine ⟨_, hcall.append (hf.spells.append_cons (hleft.append (hls.append_cons
    (hright.append spellsAny_semicolon) rfl)) rfl), ?_⟩
  intro ts hts
  obtain ⟨word, us, rfl, hword, -, hus⟩ := exists_of_map_lexeme_eq_cons hts
  obtain ⟨t, vs, rfl, ht, htext, hvs⟩ := exists_of_map_lexeme_eq_cons hus
  obtain ⟨left, ws, rfl, hleft, -, hws⟩ := exists_of_map_lexeme_eq_cons hvs
  obtain ⟨as, right, xs, rfl, has, hright, -, hxs⟩ := exists_of_map_lexeme_eq hws
  obtain ⟨semicolon, ys, rfl, hsemicolon, -, hys⟩ := exists_of_map_lexeme_eq_cons hxs
  obtain rfl := List.map_eq_nil_iff.1 hys
  cases String.toList_inj.1 htext
  exact .call hword ht hleft (hderives as has) hright hsemicolon

theorem printsAny_label {l : String} (hl : IsName l) :
    PrintsAny DerivesInstr (Instr.label l).text.toList (.label l) := by
  have hcolon : SpellsAny [':'] [(.colon, [':'])] := spellsAny_solitary .colon (by decide)
  have htext : (Instr.label l).text.toList = l.toList ++ [':'] := by
    show (l ++ ":").toList = _
    rw [String.toList_append]
    rfl
  rw [htext]
  refine ⟨_, hl.spells.append_cons hcolon rfl, ?_⟩
  intro ts hts
  obtain ⟨t, us, rfl, ht, htext, hus⟩ := exists_of_map_lexeme_eq_cons hts
  obtain ⟨colon, vs, rfl, hcolon, -, hvs⟩ := exists_of_map_lexeme_eq_cons hus
  obtain rfl := List.map_eq_nil_iff.1 hvs
  cases String.toList_inj.1 htext
  exact .label ht hcolon

/-- An assignment, given what is printed for its target. -/
theorem printsAny_assign {target v : Expr}
    (htarget : Prints (Derives .primary) target.text.toList [target])
    (hvariable : target.mentioned?.isSome = true) (hv : Prints DerivesExpr v.text.toList v) :
    PrintsAny DerivesInstr (Instr.assign target v).text.toList (.assign target v) := by
  obtain ⟨ls, hls, hderives⟩ := htarget
  obtain ⟨lv, hlv, hderivesv⟩ := hv
  have htext : (Instr.assign target v).text.toList =
      target.text.toList ++ ([' ', '=', ' '] ++ (v.text.toList ++ [';'])) := by
    show (target.text ++ " = " ++ v.text ++ ";").toList = _
    simp [String.toList_append]
  rw [htext]
  refine ⟨_, hls.append_cons (spellsAny_equal.append (hlv.append_cons spellsAny_semicolon rfl)) rfl,
    ?_⟩
  intro ts hts
  obtain ⟨us, equal, vs, rfl, hus, hequal, -, hvs⟩ := exists_of_map_lexeme_eq hts
  obtain ⟨ws, semicolon, xs, rfl, hws, hsemicolon, -, hxs⟩ := exists_of_map_lexeme_eq hvs
  obtain rfl := List.map_eq_nil_iff.1 hxs
  have hvalue := hderivesv ws hws
  cases hderives us hus with
  | name hkind => exact .assign hkind hequal hvalue hsemicolon
  | access hkind h hsome => exact .store hkind h hsome hequal hvalue hsemicolon
  | int _ _ | double _ | call _ _ _ _ | paren _ _ _ => cases hvariable

/-- The text of a readable instruction is cut into tokens that stand for it. -/
theorem printsAny_instr {i : Instr} (h : i.Readable) : PrintsAny DerivesInstr i.text.toList i := by
  obtain ⟨⟨ts, hts, hnames⟩, hfinite⟩ := h
  cases hts with
  | @declare word x semicolon hword hx hsemicolon =>
    have hname : IsName x.text := (named_cons.1 (named_cons.1 hnames).2).1 hx
    have htext : (Instr.declare x.text).text.toList =
        TokenKind.varWord.name.toList ++ [' '] ++ (x.text.toList ++ [';']) := by
      show ("var " ++ x.text ++ ";").toList = _
      simp [String.toList_append, TokenKind.name]
    rw [htext]
    exact printsAny_named (by decide) hname fun _ _ _ hk ht htext hs => htext ▸ .declare hk ht hs
  | @jump word l semicolon hword hl hsemicolon =>
    have hname : IsName l.text := (named_cons.1 (named_cons.1 hnames).2).1 hl
    have htext : (Instr.jump l.text).text.toList =
        TokenKind.gotoWord.name.toList ++ [' '] ++ (l.text.toList ++ [';']) := by
      show ("goto " ++ l.text ++ ";").toList = _
      simp [String.toList_append, TokenKind.name]
    rw [htext]
    exact printsAny_named (by decide) hname fun _ _ _ hk ht htext hs => htext ▸ .jump hk ht hs
  | branch hword condition hgoto hl hsemicolon =>
    rw [named_cons, named_append, named_cons, named_cons] at hnames
    obtain ⟨-, hcondition, -, hname, -⟩ := hnames
    exact printsAny_branch (prints_of_readable ⟨⟨_, condition, hcondition⟩, hfinite _ (.head _)⟩)
      (hname hl)
  | call hword hf hleft h hright hsemicolon =>
    rw [named_cons, named_cons, named_cons, named_append] at hnames
    obtain ⟨-, hname, -, harguments, -⟩ := hnames
    exact printsAny_call (hname hf) (prints_of_derives h harguments trivial hfinite)
  | label hl hcolon => exact printsAny_label ((named_cons.1 hnames).1 hl)
  | assign hx hequal value hsemicolon =>
    rw [named_cons, named_cons, named_append] at hnames
    obtain ⟨hname, -, hvalue, -⟩ := hnames
    exact printsAny_assign (prints_name (hname hx)) rfl
      (prints_of_readable ⟨⟨_, value, hvalue⟩, hfinite _ (.head _)⟩)
  | store ha h hsome hequal value hsemicolon =>
    rw [named_cons, named_append, named_cons, named_append] at hnames
    obtain ⟨hname, hindices, -, hvalue, -⟩ := hnames
    have htarget := prints_of_derives h hindices trivial (hfinite _ (.head _)).parts
    exact printsAny_assign (prints_access (hname ha) hsome htarget) rfl
      (prints_of_readable ⟨⟨_, value, hvalue⟩, hfinite _ (.tail _ (.head _))⟩)

/-! ### Blocks -/

/-- The text of instructions in braces. -/
def blockText (body : List Instr) : List Char :=
  [' ', '\x7b'] ++ (body.flatMap (fun i => ['\n', ' ', ' '] ++ i.text.toList) ++ ['\n', '\x7d'])

theorem toList_listBlock (header : String) (body : List Instr) :
    (listBlock header (body.map Instr.text)).toList = header.toList ++ blockText body := by
  simp [listBlock, blockText, String.toList_append, List.flatMap_map]

theorem printsAny_block {body : List Instr} (h : ∀ i ∈ body, i.Readable) :
    PrintsAny DerivesBlock (blockText body) body := by
  have hbody : PrintsAny (Repeated DerivesInstr)
      (body.flatMap fun i => ['\n', ' ', ' '] ++ i.text.toList) body :=
    printsAny_repeated fun i hi => (printsAny_instr (h i hi)).blanks_append (by decide)
  obtain ⟨ls, hls, hderives⟩ := hbody
  have hleft : SpellsAny [' ', '\x7b'] [(.leftBrace, ['\x7b'])] :=
    (spellsAny_solitary .leftBrace (by decide)).blank (by decide)
  have hright : SpellsAny ['\n', '\x7d'] [(.rightBrace, ['\x7d'])] :=
    (spellsAny_solitary .rightBrace (by decide)).blank (by decide)
  refine ⟨_, hleft.append (hls.append hright), ?_⟩
  intro ts hts
  obtain ⟨left, us, rfl, hleft, -, hus⟩ := exists_of_map_lexeme_eq_cons hts
  obtain ⟨vs, right, ws, rfl, hvs, hright, -, hws⟩ := exists_of_map_lexeme_eq hus
  obtain rfl := List.map_eq_nil_iff.1 hws
  exact ⟨left, vs, right, rfl, hleft, hderives vs hvs, hright⟩

/-! ### The loop -/

theorem spellsAny_loopWord :
    SpellsAny ['l', 'o', 'o', 'p', ' '] [(.loopWord, ['l', 'o', 'o', 'p'])] :=
  spellsAny_keyword .loopWord (by decide)

theorem printsAny_unbounded {body : List Instr} (hx : IsName x) (h : ∀ i ∈ body, i.Readable) :
    PrintsAny DerivesLoop (("loop " ++ x).toList ++ blockText body) ⟨x, none, body⟩ := by
  obtain ⟨ls, hls, hderives⟩ := printsAny_block h
  have htext : ("loop " ++ x).toList ++ blockText body =
      ['l', 'o', 'o', 'p', ' '] ++ (x.toList ++ blockText body) := by
    simp [String.toList_append]
  rw [htext]
  refine ⟨_, spellsAny_loopWord.append (hx.spells.append_cons hls rfl), ?_⟩
  intro ts hts
  obtain ⟨word, us, rfl, hword, -, hus⟩ := exists_of_map_lexeme_eq_cons hts
  obtain ⟨t, vs, rfl, ht, hx, hvs⟩ := exists_of_map_lexeme_eq_cons hus
  cases String.toList_inj.1 hx
  exact .unbounded hword ht (hderives vs hvs)

theorem printsAny_bounded {body : List Instr} {lower upper : Expr} (hx : IsName x)
    (hlower : lower.Readable) (hupper : upper.Readable) (h : ∀ i ∈ body, i.Readable) :
    PrintsAny DerivesLoop
      (("loop " ++ x ++ " = " ++ lower.text ++ " to " ++ upper.text).toList ++ blockText body)
      ⟨x, some (lower, upper), body⟩ := by
  obtain ⟨ls, hls, hderives⟩ := printsAny_block h
  obtain ⟨ll, hll, hderivesl⟩ := prints_of_readable hlower
  obtain ⟨lu, hlu, hderivesu⟩ := prints_of_readable hupper
  have hto : SpellsAny [' ', 't', 'o', ' '] [(.toWord, ['t', 'o'])] :=
    (spellsAny_keyword .toWord (by decide)).blank (by decide)
  have htext : ("loop " ++ x ++ " = " ++ lower.text ++ " to " ++ upper.text).toList ++
      blockText body = ['l', 'o', 'o', 'p', ' '] ++ (x.toList ++ ([' ', '=', ' '] ++
        (lower.text.toList ++ ([' ', 't', 'o', ' '] ++
          (upper.text.toList ++ blockText body))))) := by
    simp [String.toList_append]
  rw [htext]
  refine ⟨_, spellsAny_loopWord.append (hx.spells.append_cons (spellsAny_equal.append
    (hll.append_cons (hto.append (hlu.append_cons hls rfl)) rfl)) rfl), ?_⟩
  intro ts hts
  obtain ⟨word, us, rfl, hword, -, hus⟩ := exists_of_map_lexeme_eq_cons hts
  obtain ⟨t, vs, rfl, ht, hx, hvs⟩ := exists_of_map_lexeme_eq_cons hus
  obtain ⟨equal, ws, rfl, hequal, -, hws⟩ := exists_of_map_lexeme_eq_cons hvs
  obtain ⟨as, word', bs, rfl, has, hto, -, hbs⟩ := exists_of_map_lexeme_eq hws
  have hbs : bs.map Token.lexeme = lu ++ ls := hbs
  obtain ⟨cs, ds, rfl, hcs, hds⟩ := List.map_eq_append_iff.1 hbs
  cases String.toList_inj.1 hx
  exact .bounded hword ht hequal (hderivesl as has) hto (hderivesu cs hcs) (hderives ds hds)

theorem printsAny_loop {p : Program} (h : p.Readable) :
    ∃ bounds, bounds.map (·.1) = p.lower ∧ bounds.map (·.2) = p.upper ∧
      PrintsAny DerivesLoop (p.header.toList ++ blockText p.body) ⟨p.counter, bounds, p.body⟩ := by
  obtain ⟨hlower, hupper⟩ | ⟨lower, upper, hlower, hupper, hlr, hur⟩ := h.bounds
  · have hheader : p.header = "loop " ++ p.counter := by rw [Program.header, hlower]
    rw [hlower, hupper, hheader]
    exact ⟨none, rfl, rfl, printsAny_unbounded h.counter h.body⟩
  · have hheader : p.header =
        "loop " ++ p.counter ++ " = " ++ lower.text ++ " to " ++ upper.text := by
      rw [Program.header, hlower, hupper]
    rw [hlower, hupper, hheader]
    exact ⟨some (lower, upper), rfl, rfl, printsAny_bounded h.counter hlr hur h.body⟩

/-! ### Procedures -/

theorem prints_nameToken (hx : IsName x) : Prints IsNameToken x.toList x := by
  refine ⟨_, hx.spells, ?_⟩
  intro ts hts
  obtain ⟨t, us, rfl, ht, htext, hus⟩ := exists_of_map_lexeme_eq_cons hts
  obtain rfl := List.map_eq_nil_iff.1 hus
  exact ⟨t, rfl, ht, String.toList_inj.1 htext.symm⟩

/-- Names with commas before them. -/
theorem prints_moreNames {xs : List String} (h : ∀ x ∈ xs, IsName x) :
    Prints (Repeated (AfterComma IsNameToken)) (xs.flatMap fun x => ',' :: ' ' :: x.toList) xs := by
  induction xs with
  | nil =>
    refine ⟨[], spellsAny_nil.spells, fun ts hts => ?_⟩
    rw [List.map_eq_nil_iff.1 hts]
    exact .nil
  | cons x xs ih =>
    obtain ⟨hx, hxs⟩ := List.forall_mem_cons.1 h
    obtain ⟨ls, hls, hname⟩ := prints_nameToken hx
    obtain ⟨ms, hms, hnames⟩ := ih hxs
    have hcomma : SpellsAny [',', ' '] [(.comma, [','])] := spellsAny_symbol .comma (by decide)
    have hstops : stops (xs.flatMap fun x => ',' :: ' ' :: x.toList) = true := by
      cases xs <;> rfl
    refine ⟨_, hcomma.append_spells (hls.append hms hstops), fun ts hts => ?_⟩
    obtain ⟨comma, us, rfl, hcomma, -, hus⟩ := exists_of_map_lexeme_eq_cons hts
    have hus : us.map Token.lexeme = ls ++ ms := hus
    obtain ⟨vs, ws, rfl, hvs, hws⟩ := List.map_eq_append_iff.1 hus
    exact .cons ⟨comma, vs, rfl, hcomma, hname vs hvs⟩ (hnames ws hws)

theorem prints_parameters {xs : List String} (h : ∀ x ∈ xs, IsName x) :
    Prints (fun ts ys => ts = [] ∧ ys = [] ∨ Separated IsNameToken ts ys)
      (", ".intercalate xs).toList xs := by
  cases xs with
  | nil => exact ⟨[], spellsAny_nil.spells, fun ts hts => .inl ⟨List.map_eq_nil_iff.1 hts, rfl⟩⟩
  | cons x xs =>
    obtain ⟨hx, hxs⟩ := List.forall_mem_cons.1 h
    obtain ⟨ls, hls, hname⟩ := prints_nameToken hx
    obtain ⟨ms, hms, hnames⟩ := prints_moreNames hxs
    have hstops : stops (xs.flatMap fun x => ',' :: ' ' :: x.toList) = true := by
      cases xs <;> rfl
    rw [toList_intercalate_cons]
    refine ⟨_, hls.append hms hstops, fun ts hts => ?_⟩
    obtain ⟨us, vs, rfl, hus, hvs⟩ := List.map_eq_append_iff.1 hts
    exact .inr ⟨us, vs, x, xs, rfl, rfl, hname us hus, hnames vs hvs⟩

theorem printsAny_procedure {f : Procedure} (h : f.Readable) :
    PrintsAny DerivesProcedure f.listing.toList f := by
  obtain ⟨ls, hls, hderives⟩ := printsAny_block h.body
  obtain ⟨ms, hms, hparameters⟩ := prints_parameters h.parameters
  have hproc : SpellsAny ['p', 'r', 'o', 'c', ' '] [(.procWord, ['p', 'r', 'o', 'c'])] :=
    spellsAny_keyword .procWord (by decide)
  have hleft : SpellsAny ['('] [(.leftParen, ['('])] := spellsAny_solitary .leftParen (by decide)
  have hright : SpellsAny [')'] [(.rightParen, [')'])] :=
    spellsAny_solitary .rightParen (by decide)
  have htext : f.listing.toList = ['p', 'r', 'o', 'c', ' '] ++ (f.name.toList ++ (['('] ++
      ((", ".intercalate f.parameters).toList ++ ([')'] ++ blockText f.body)))) := by
    rw [Procedure.listing, toList_listBlock]
    simp [String.toList_append]
  rw [htext]
  refine ⟨_, hproc.append (h.name.spells.append_cons (hleft.append (hms.append_cons
    (hright.append hls) rfl)) rfl), ?_⟩
  intro ts hts
  obtain ⟨word, us, rfl, hword, -, hus⟩ := exists_of_map_lexeme_eq_cons hts
  obtain ⟨t, vs, rfl, ht, hname, hvs⟩ := exists_of_map_lexeme_eq_cons hus
  obtain ⟨left, ws, rfl, hleft, -, hws⟩ := exists_of_map_lexeme_eq_cons hvs
  obtain ⟨as, right, bs, rfl, has, hright, -, hbs⟩ := exists_of_map_lexeme_eq hws
  have hprocedure := DerivesProcedure.intro hword ht hleft (hparameters as has) hright
    (hderives bs hbs)
  rwa [String.toList_inj.1 hname] at hprocedure

/-! ### Symbols -/

theorem isName_visibility (v : Visibility) : IsName v.word := by
  cases v <;> exact ⟨_, _, rfl, by decide, by decide, by decide⟩

theorem isName_rebindingKind (k : RebindingKind) : IsName k.word := by
  cases k <;> exact ⟨_, _, rfl, by decide, by decide, by decide⟩

theorem isName_rebindingValue (v : RebindingValue) : IsName v.word := by
  cases v <;> exact ⟨_, _, rfl, by decide, by decide, by decide⟩

theorem lookup_visibility (v : Visibility) : visibilityWords.lookup v.word = some v := by
  cases v <;> rfl

theorem lookup_rebindingKind (k : RebindingKind) : rebindingKindWords.lookup k.word = some k := by
  cases k <;> rfl

theorem lookup_rebindingValue (v : RebindingValue) :
    rebindingValueWords.lookup v.word = some v := by
  cases v <;> rfl

theorem printsAny_dimension : PrintsAny DerivesDimension ['[', ']'] () := by
  have hleft : SpellsAny ['['] [(.leftBracket, ['['])] :=
    spellsAny_solitary .leftBracket (by decide)
  have hright : SpellsAny [']'] [(.rightBracket, [']'])] :=
    spellsAny_solitary .rightBracket (by decide)
  refine ⟨_, hleft.append hright, ?_⟩
  intro ts hts
  obtain ⟨left, us, rfl, hleft, -, hus⟩ := exists_of_map_lexeme_eq_cons hts
  obtain ⟨right, vs, rfl, hright, -, hvs⟩ := exists_of_map_lexeme_eq_cons hus
  obtain rfl := List.map_eq_nil_iff.1 hvs
  exact ⟨left, right, rfl, hleft, hright⟩

theorem printsAny_rebinding (r : Rebinding) :
    PrintsAny DerivesRebinding (" " ++ r.kind.word ++ "(" ++ r.value.word ++ ")").toList r := by
  have hleft : SpellsAny ['('] [(.leftParen, ['('])] := spellsAny_solitary .leftParen (by decide)
  have hright : SpellsAny [')'] [(.rightParen, [')'])] :=
    spellsAny_solitary .rightParen (by decide)
  have hvalue := (isName_rebindingValue r.value).spells.append_cons hright rfl
  have hkind := (isName_rebindingKind r.kind).spells.append_cons (hleft.append hvalue) rfl
  have htext : (" " ++ r.kind.word ++ "(" ++ r.value.word ++ ")").toList =
      ' ' :: (r.kind.word.toList ++ (['('] ++ (r.value.word.toList ++ [')']))) := by
    simp [String.toList_append]
  rw [htext]
  refine ⟨_, hkind.blank (by decide), ?_⟩
  intro ts hts
  obtain ⟨kind, us, rfl, hkind, hkindtext, hus⟩ := exists_of_map_lexeme_eq_cons hts
  obtain ⟨left, vs, rfl, hleft, -, hvs⟩ := exists_of_map_lexeme_eq_cons hus
  obtain ⟨value, ws, rfl, hvalue, hvaluetext, hws⟩ := exists_of_map_lexeme_eq_cons hvs
  obtain ⟨right, xs, rfl, hright, -, hxs⟩ := exists_of_map_lexeme_eq_cons hws
  obtain rfl := List.map_eq_nil_iff.1 hxs
  have hk : rebindingKindWords.lookup kind.text = some r.kind := by
    rw [String.toList_inj.1 hkindtext, lookup_rebindingKind]
  have hv : rebindingValueWords.lookup value.text = some r.value := by
    rw [String.toList_inj.1 hvaluetext, lookup_rebindingValue]
  exact ⟨kind, left, value, right, rfl, ⟨hkind, hk⟩, hleft, ⟨hvalue, hv⟩, hright⟩

/-- What follows the type of a symbol. -/
def symbolTail (s : Symbol) : List Char :=
  (List.replicate s.rank ()).flatMap (fun _ => ['[', ']']) ++ (s.rebindings.flatMap
    (fun r => (" " ++ r.kind.word ++ "(" ++ r.value.word ++ ")").toList) ++ [';'])

theorem exists_symbolTail_eq_cons (s : Symbol) :
    ∃ c cs, symbolTail s = c :: cs ∧ stops [c] = true := by
  rw [symbolTail]
  cases s.rank with
  | succ n => exact ⟨_, _, rfl, rfl⟩
  | zero =>
    cases s.rebindings with
    | nil => exact ⟨_, _, rfl, rfl⟩
    | cons r rs =>
      simp only [List.flatMap_cons, String.toList_append]
      exact ⟨_, _, rfl, rfl⟩

theorem printsAny_symbol {s : Symbol} (h : s.Readable) :
    PrintsAny DerivesSymbol s.listing.toList s := by
  obtain ⟨ls, hls, hdimensions⟩ := printsAny_repeated
    fun _ (_ : _ ∈ List.replicate s.rank ()) => printsAny_dimension
  obtain ⟨ms, hms, hrebindings⟩ :=
    printsAny_repeated fun r (_ : r ∈ s.rebindings) => printsAny_rebinding r
  have htail : SpellsAny (symbolTail s) _ := hls.append (hms.append spellsAny_semicolon)
  obtain ⟨c, cs, hcons, hstops⟩ := exists_symbolTail_eq_cons s
  rw [hcons] at htail
  have helement := h.elementName.spells.append_cons htail hstops
  have hvisibility := (isName_visibility s.visibility).spells.append_cons
    (helement.blank (by decide : Text.isBlank ' ' = true)) rfl
  have hcolon : SpellsAny [':', ' '] [(.colon, [':'])] := spellsAny_symbol .colon (by decide)
  have hsymbol : SpellsAny ['s', 'y', 'm', 'b', 'o', 'l', ' ']
      [(.symbolWord, ['s', 'y', 'm', 'b', 'o', 'l'])] := spellsAny_keyword .symbolWord (by decide)
  have htext : s.listing.toList = ['s', 'y', 'm', 'b', 'o', 'l', ' '] ++ (s.name.toList ++
      ([':', ' '] ++ (s.visibility.word.toList ++ ' ' :: (s.element.name.toList ++ c :: cs)))) := by
    rw [← hcons, symbolTail]
    unfold Symbol.listing
    simp [String.toList_append, List.flatMap_map, List.flatMap_replicate]
  rw [htext]
  refine ⟨_, hsymbol.append (h.name.spells.append_cons (hcolon.append hvisibility) rfl), ?_⟩
  intro ts hts
  obtain ⟨word, us, rfl, hword, -, hus⟩ := exists_of_map_lexeme_eq_cons hts
  obtain ⟨t, vs, rfl, ht, hname, hvs⟩ := exists_of_map_lexeme_eq_cons hus
  obtain ⟨colon, ws, rfl, hcolon, -, hws⟩ := exists_of_map_lexeme_eq_cons hvs
  obtain ⟨v, xs, rfl, hv, hvtext, hxs⟩ := exists_of_map_lexeme_eq_cons hws
  obtain ⟨element, ys, rfl, helement, hetext, hys⟩ := exists_of_map_lexeme_eq_cons hxs
  have hys : ys.map Token.lexeme = ls ++ (ms ++ [(.semicolon, [';'])]) := hys
  obtain ⟨as, bs, rfl, has, hbs⟩ := List.map_eq_append_iff.1 hys
  obtain ⟨bs, semicolon, cs, rfl, hms, hsemicolon, -, hcs⟩ := exists_of_map_lexeme_eq hbs
  obtain rfl := List.map_eq_nil_iff.1 hcs
  have hvword : visibilityWords.lookup v.text = some s.visibility := by
    rw [String.toList_inj.1 hvtext, lookup_visibility]
  have hderives := DerivesSymbol.intro hword ht hcolon ⟨hv, hvword⟩ helement (hdimensions as has)
    (hrebindings bs hms) hsemicolon
  rwa [String.toList_inj.1 hname, String.toList_inj.1 hetext, ← h.element,
    List.length_replicate] at hderives

end Listing

end ParLoop
