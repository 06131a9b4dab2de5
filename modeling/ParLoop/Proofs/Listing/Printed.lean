import ParLoop.Proofs.Expr.Subterms
import ParLoop.Proofs.Listing.Doubles
import ParLoop.Proofs.Listing.Grammar

/-!
# Printed expressions

The text of an expression that follows the grammar is cut into tokens that stand for the same
expression in the same place of the grammar (`prints_of_derives`). No parentheses are written, so
this rests on the levels of the operators being those of the grammar; and no two tokens of the text
run into each other.
-/

namespace ParLoop

/-- The value of a double literal. -/
def Expr.double? : Expr → Option Double
  | .double d => some d
  | _ => none

/-- The double literals of an expression. -/
def Expr.doubles (e : Expr) : List Double := e.subterms.filterMap double?

/-- No double literal of an expression is infinite. -/
def Expr.Finite (e : Expr) : Prop := ∀ d ∈ e.doubles, d.isFinite = true

theorem Expr.mem_doubles {e : Expr} {d : Double} : d ∈ e.doubles ↔ .double d ∈ e.subterms := by
  rw [doubles, List.mem_filterMap]
  constructor
  · rintro ⟨t, ht, hd⟩
    cases t with
    | double d' =>
      cases hd
      exact ht
    | _ => cases hd
  · intro h
    exact ⟨_, h, rfl⟩

theorem Expr.Finite.parts {e : Expr} (h : e.Finite) : ∀ c ∈ e.children, c.Finite :=
  fun _ hc d hd => h d (mem_doubles.2 (mem_subterms_of_mem_children hc (mem_doubles.1 hd)))

theorem Expr.finite_double {d : Double} : (Expr.double d).Finite ↔ d.isFinite = true := by
  simp [Finite, doubles, subterms, double?]

theorem Double.neg_neg (d : Double) : d.neg.neg = d := by
  obtain ⟨negative, magnitude, hle, hzero⟩ := d
  have hmin : min magnitude Double.infinity = magnitude := Nat.min_eq_left hle
  by_cases hm : magnitude = 0
  · have hpositive := hzero hm
    subst hm hpositive
    rfl
  · have hne : (magnitude != 0) = true := bne_iff_ne.2 hm
    simp [neg, ofMagnitude, hmin, hne]

namespace Listing

open ParLoop.Double

variable {α : Type} {ts : List Token} {e : Expr} {es : List Expr}

/-! ### Tokens of a text -/

/-- Characters that are cut into tokens of a form. -/
def Prints (form : List Token → α → Prop) (cs : List Char) (x : α) : Prop :=
  ∃ ls, Spells cs ls ∧ ∀ ts : List Token, ts.map Token.lexeme = ls → form ts x

theorem prints_nil {form : List Token → α → Prop} {x : α} (h : form [] x) : Prints form [] x := by
  refine ⟨[], spellsAny_nil.spells, fun ts hts => ?_⟩
  rw [List.map_eq_nil_iff.1 hts]
  exact h

theorem exists_of_map_lexeme_eq {k : TokenKind} {cs : List Char} {ls ms : List Lexeme}
    (h : ts.map Token.lexeme = ls ++ (k, cs) :: ms) :
    ∃ us t vs, ts = us ++ t :: vs ∧ us.map Token.lexeme = ls ∧ t.kind = k ∧ t.text.toList = cs ∧
      vs.map Token.lexeme = ms := by
  obtain ⟨us, vs, rfl, hus, hvs⟩ := List.map_eq_append_iff.1 h
  obtain ⟨t, vs, rfl, ht, htail⟩ := List.map_eq_cons_iff.1 hvs
  cases ht
  exact ⟨us, t, vs, rfl, hus, rfl, rfl, htail⟩

theorem exists_of_map_lexeme_eq_cons {k : TokenKind} {cs : List Char} {ms : List Lexeme}
    (h : ts.map Token.lexeme = (k, cs) :: ms) :
    ∃ t us, ts = t :: us ∧ t.kind = k ∧ t.text.toList = cs ∧ us.map Token.lexeme = ms := by
  obtain ⟨t, us, rfl, ht, hus⟩ := List.map_eq_cons_iff.1 h
  cases ht
  exact ⟨t, us, rfl, rfl, rfl, hus⟩

/-- A symbol between blanks. -/
theorem spellsAny_between (k : TokenKind) (hk : k ∈ TokenKind.symbols) :
    SpellsAny (' ' :: (k.name.toList ++ [' '])) [(k, k.name.toList)] :=
  (spellsAny_symbol k hk).blank (by decide)

/-- Texts with commas between them. -/
theorem toList_intercalate_cons (s : String) (ss : List String) :
    (", ".intercalate (s :: ss)).toList =
      s.toList ++ ss.flatMap fun t => ',' :: ' ' :: t.toList := by
  induction ss generalizing s with
  | nil => simp
  | cons t ss ih =>
    rw [String.intercalate_cons_cons, String.toList_append, ih, String.toList_append]
    simp

/-! ### Literals -/

theorem prints_natural {n : Nat} (hn : n ≤ maxInteger) :
    Prints (Derives .primary) (Expr.int n).text.toList [.int n] := by
  have htext : (Expr.int n).text.toList = Nat.toDigits 10 n := by
    show (Nat.repr n).toList = _
    rw [Nat.toList_repr]
  rw [htext]
  refine ⟨_, spells_integer n, ?_⟩
  intro ts hts
  obtain ⟨t, us, rfl, hkind, hdigits, hus⟩ := exists_of_map_lexeme_eq_cons hts
  obtain rfl := List.map_eq_nil_iff.1 hus
  have hvalue : digitsValue t.text.toList = n := by rw [hdigits, digitsValue_toDigits]
  have hint := Derives.int hkind (hvalue ▸ hn)
  rwa [hvalue] at hint

theorem prints_unsigned {d : Double} (hsign : d.negative = false) (hd : d.isFinite = true) :
    Prints (Derives .primary) (Expr.double d).text.toList [.double d] := by
  refine ⟨_, spells_text hsign hd, ?_⟩
  intro ts hts
  obtain ⟨t, us, rfl, hkind, htext, hus⟩ := exists_of_map_lexeme_eq_cons hts
  obtain rfl := List.map_eq_nil_iff.1 hus
  have hdouble := Derives.double hkind
  rwa [htext, ofDecimal_text hsign hd] at hdouble

/-- What is printed behind a minus sign. -/
theorem prints_minus {cs : List Char} (h : Prints (Derives .operand) cs [e]) :
    Prints (Derives .operand) ('-' :: cs) [negated e] := by
  obtain ⟨ls, hspells, hderives⟩ := h
  have hminus : SpellsAny ['-'] [(.minus, ['-'])] := spellsAny_solitary .minus (by decide)
  refine ⟨_, hminus.append_spells hspells, ?_⟩
  intro ts hts
  obtain ⟨t, us, rfl, hkind, -, hus⟩ := exists_of_map_lexeme_eq_cons hts
  exact .minus hkind (hderives us hus)

theorem Prints.unsigned {cs : List Char} (h : Prints (Derives .primary) cs [e]) :
    Prints (Derives .operand) cs [e] := by
  obtain ⟨ls, hspells, hderives⟩ := h
  exact ⟨ls, hspells, fun ts hts => .unsigned (hderives ts hts)⟩

theorem prints_int {v : Int} (hv : v.natAbs ≤ maxInteger) :
    Prints (Derives .operand) (Expr.int v).text.toList [.int v] := by
  cases v with
  | ofNat n => exact (prints_natural hv).unsigned
  | negSucc n =>
    have htext : (Expr.int (Int.negSucc n)).text.toList =
        '-' :: (Expr.int (n + 1 : Nat)).text.toList := by
      show ("-" ++ Nat.repr (n + 1)).toList = '-' :: (Nat.repr (n + 1)).toList
      rw [String.toList_append]
      rfl
    rw [htext]
    exact prints_minus (prints_natural hv).unsigned

theorem prints_double {d : Double} (hd : d.isFinite = true) :
    Prints (Derives .operand) (Expr.double d).text.toList [.double d] := by
  cases hsign : d.negative with
  | false => exact (prints_unsigned hsign hd).unsigned
  | true =>
    -- A negative double is printed as its sign and the double without it.
    have hmagnitude : d.neg.magnitude = d.magnitude := Nat.min_eq_left d.magnitude_le
    have hpositive : d.neg.negative = false := by simp [Double.neg, ofMagnitude, hsign]
    have hfinite : d.neg.isFinite = true := by rw [isFinite, hmagnitude]; exact hd
    have htext : (Expr.double d).text.toList = '-' :: (Expr.double d.neg).text.toList := by
      show (d.text Expr.numerals).toList = '-' :: (d.neg.text Expr.numerals).toList
      simp [text, hmagnitude, hpositive, hsign]
    have hminus := prints_minus (prints_unsigned hpositive hfinite).unsigned
    rw [htext]
    rwa [negated, Double.neg_neg] at hminus

/-- Only literals of a limited size are read, and negation keeps the size. -/
theorem Derives.natAbs_le {phrase : Phrase} (h : Derives phrase ts es) {v : Int}
    (hv : .int v ∈ es) : v.natAbs ≤ maxInteger := by
  induction h generalizing v with
  | plain _ ih | unjoined _ ih | tighter _ ih | unsigned _ ih => exact ih hv
  | int _ hrange =>
    cases List.mem_singleton.1 hv
    exact hrange
  | @minus _ _ e _ _ ih =>
    -- Only a literal becomes a literal behind a minus sign.
    have hv := List.mem_singleton.1 hv
    cases e with
    | int w =>
      cases hv
      rw [Int.natAbs_neg]
      exact ih List.mem_cons_self
    | _ => cases hv
  | argument _ _ ih ih' | more _ _ _ ih ih' | index _ _ _ _ ih ih' =>
    obtain rfl | hv := List.mem_cons.1 hv
    · exact ih List.mem_cons_self
    · exact ih' hv
  | noArguments | noMore | noIndex => cases hv
  | conditional _ _ _ _ _ _ _ _ | operator _ _ _ _ _ | double _ | name _ | call _ _ _ _ _
  | access _ _ _ _ | paren _ _ _ _ => cases List.mem_singleton.1 hv

/-! ### Names and operators -/

/-- Every identifier is a name. -/
def Named (ts : List Token) : Prop := ∀ t ∈ ts, t.kind = .identifier → IsName t.text

theorem named_cons {t : Token} :
    Named (t :: ts) ↔ (t.kind = .identifier → IsName t.text) ∧ Named ts := List.forall_mem_cons

theorem named_append {us : List Token} : Named (ts ++ us) ↔ Named ts ∧ Named us :=
  List.forall_mem_append

/-- The operators of a phrase are written as the symbols by which they are read. -/
def Phrase.Known : Phrase → Prop
  | .joined levels => ∀ level ∈ levels, ∀ x ∈ level, x.1 ∈ TokenKind.symbols ∧ x.2.symbol = x.1.name
  | _ => True

/-- The text of what a phrase stands for. -/
def Phrase.text : Phrase → List Expr → List Char
  | .arguments, es => (", ".intercalate (es.map Expr.text)).toList
  | .moreArguments, es => es.flatMap fun e => ',' :: ' ' :: e.text.toList
  | .indices, es => es.flatMap fun e => '[' :: (e.text.toList ++ [']'])
  | _, es => es.flatMap fun e => e.text.toList

theorem Phrase.text_singleton {phrase : Phrase} (h : phrase.isExpression = true) (e : Expr) :
    phrase.text [e] = e.text.toList := by
  cases phrase with
  | arguments | moreArguments | indices => cases h
  | expression | joined _ | operand | primary => exact List.append_nil _

/-! ### Expressions -/

theorem finite_of_finite_negated (h : (negated e).Finite) : e.Finite := by
  cases e with
  | int v => exact fun d hd => absurd hd (by simp [Expr.doubles, Expr.subterms, Expr.double?])
  | double d =>
    have hfinite : d.neg.isFinite = true := Expr.finite_double.1 h
    have hmagnitude : d.neg.magnitude = d.magnitude := Nat.min_eq_left d.magnitude_le
    rw [isFinite, hmagnitude] at hfinite
    exact Expr.finite_double.2 hfinite
  | _ => exact h.parts _ (.head _)

/-- What is printed for an operand behind a minus sign. -/
theorem prints_negated (hprints : Prints (Derives .operand) e.text.toList [e])
    (hint : ∀ v, e = .int v → v.natAbs ≤ maxInteger) (hfinite : (negated e).Finite) :
    Prints (Derives .operand) (negated e).text.toList [negated e] := by
  cases e with
  | int v => exact prints_int (by rw [Int.natAbs_neg]; exact hint v rfl)
  | double d => exact prints_double (Expr.finite_double.1 hfinite)
  | _ =>
    have htext (e : Expr) : (Expr.neg e).text.toList = '-' :: e.text.toList := by
      show ("-" ++ e.text).toList = _
      rw [String.toList_append]
      rfl
    have hminus := prints_minus hprints
    rw [← htext] at hminus
    exact hminus

theorem prints_conditional {c t f : Expr}
    (hc : Prints (Derives (.joined operatorLevels)) c.text.toList [c])
    (ht : Prints (Derives .expression) t.text.toList [t])
    (hf : Prints (Derives .expression) f.text.toList [f]) :
    Prints (Derives .expression) (Expr.cond c t f).text.toList [.cond c t f] := by
  obtain ⟨lc, hlc, hderivesc⟩ := hc
  obtain ⟨lt, hlt, hderivest⟩ := ht
  obtain ⟨lf, hlf, hderivesf⟩ := hf
  have hquestion : SpellsAny [' ', '?', ' '] [(.question, ['?'])] :=
    spellsAny_between .question (by decide)
  have hcolon : SpellsAny [' ', ':', ' '] [(.colon, [':'])] :=
    spellsAny_between .colon (by decide)
  have htext : (Expr.cond c t f).text.toList =
      c.text.toList ++ ([' ', '?', ' '] ++ (t.text.toList ++ ([' ', ':', ' '] ++
        f.text.toList))) := by
    show (c.text ++ " ? " ++ t.text ++ " : " ++ f.text).toList = _
    simp [String.toList_append]
  rw [htext]
  refine ⟨_, hlc.append (hquestion.append_spells (hlt.append (hcolon.append_spells hlf) rfl)) rfl,
    ?_⟩
  intro ts hts
  obtain ⟨us, question, ts', rfl, hus, hkind, -, hts'⟩ := exists_of_map_lexeme_eq hts
  obtain ⟨vs, colon, ws, rfl, hvs, hkind', -, hws⟩ := exists_of_map_lexeme_eq hts'
  exact .conditional (hderivesc us hus) hkind (hderivest vs hvs) hkind' (hderivesf ws hws)

theorem prints_operator {level : List (TokenKind × BinaryOp)}
    {levels : List (List (TokenKind × BinaryOp))} {k : TokenKind} {op : BinaryOp} {l r : Expr}
    (hk : k ∈ TokenKind.symbols) (hsymbol : op.symbol = k.name) (hop : level.lookup k = some op)
    (hl : Prints (Derives (.joined (level :: levels))) l.text.toList [l])
    (hr : Prints (Derives (.joined levels)) r.text.toList [r]) :
    Prints (Derives (.joined (level :: levels))) (Expr.binary op l r).text.toList
      [.binary op l r] := by
  obtain ⟨ll, hll, hderivesl⟩ := hl
  obtain ⟨lr, hlr, hderivesr⟩ := hr
  have htext : (Expr.binary op l r).text.toList =
      l.text.toList ++ (' ' :: (k.name.toList ++ [' ']) ++ r.text.toList) := by
    show (l.text ++ " " ++ op.symbol ++ " " ++ r.text).toList = _
    simp [String.toList_append, hsymbol]
  rw [htext]
  refine ⟨_, hll.append ((spellsAny_between k hk).append_spells hlr) rfl, ?_⟩
  intro ts hts
  obtain ⟨us, sign, vs, rfl, hus, hkind, -, hvs⟩ := exists_of_map_lexeme_eq hts
  exact .operator (hderivesl us hus) (hkind ▸ hop) (hderivesr vs hvs)

theorem prints_name {x : String} (hx : IsName x) :
    Prints (Derives .primary) (Expr.var x).text.toList [.var x] := by
  refine ⟨_, hx.spells, ?_⟩
  intro ts hts
  obtain ⟨t, us, rfl, hkind, htext, hus⟩ := exists_of_map_lexeme_eq_cons hts
  obtain rfl := List.map_eq_nil_iff.1 hus
  cases String.toList_inj.1 htext
  exact .name hkind

theorem prints_call {f : String} (hf : IsName f)
    (hes : Prints (Derives .arguments) (Phrase.text .arguments es) es) :
    Prints (Derives .primary) (Expr.call f es).text.toList [.call f es] := by
  obtain ⟨ls, hls, hderives⟩ := hes
  have hleft : SpellsAny ['('] [(.leftParen, ['('])] := spellsAny_solitary .leftParen (by decide)
  have hright : SpellsAny [')'] [(.rightParen, [')'])] :=
    spellsAny_solitary .rightParen (by decide)
  have htext : (Expr.call f es).text.toList =
      f.toList ++ (['('] ++ (Phrase.text .arguments es ++ [')'])) := by
    show (f ++ "(" ++ ", ".intercalate (Expr.textList es) ++ ")").toList = _
    simp [String.toList_append, Expr.textList_eq, Phrase.text]
  rw [htext]
  refine ⟨_, hf.spells.append (hleft.append (hls.append_cons hright rfl)).spells rfl, ?_⟩
  intro ts hts
  obtain ⟨t, us, rfl, hkind, htext, hus⟩ := exists_of_map_lexeme_eq_cons hts
  obtain ⟨left, vs, rfl, hkindl, -, hvs⟩ := exists_of_map_lexeme_eq_cons hus
  obtain ⟨ws, right, xs, rfl, hws, hkindr, -, hxs⟩ := exists_of_map_lexeme_eq hvs
  obtain rfl := List.map_eq_nil_iff.1 hxs
  cases String.toList_inj.1 htext
  exact .call hkind hkindl (hderives ws hws) hkindr

theorem prints_access {a : String} (ha : IsName a) (hsome : es ≠ [])
    (hes : Prints (Derives .indices) (Phrase.text .indices es) es) :
    Prints (Derives .primary) (Expr.access a es).text.toList [.access a es] := by
  obtain ⟨ls, hls, hderives⟩ := hes
  have htext : (Expr.access a es).text.toList = a.toList ++ Phrase.text .indices es := by
    show (a ++ String.join ((Expr.textList es).map fun t => "[" ++ t ++ "]")).toList = _
    simp [String.toList_append, Expr.textList_eq, Phrase.text, List.flatMap_map]
  have hstops : stops (Phrase.text .indices es) = true := by
    cases es with
    | nil => rfl
    | cons e es => rfl
  rw [htext]
  refine ⟨_, ha.spells.append hls hstops, ?_⟩
  intro ts hts
  obtain ⟨t, us, rfl, hkind, htext, hus⟩ := exists_of_map_lexeme_eq_cons hts
  cases String.toList_inj.1 htext
  exact .access hkind (hderives us hus) hsome

theorem prints_paren (he : Prints (Derives .expression) e.text.toList [e]) :
    Prints (Derives .primary) (Expr.paren e).text.toList [.paren e] := by
  obtain ⟨ls, hls, hderives⟩ := he
  have hleft : SpellsAny ['('] [(.leftParen, ['('])] := spellsAny_solitary .leftParen (by decide)
  have hright : SpellsAny [')'] [(.rightParen, [')'])] :=
    spellsAny_solitary .rightParen (by decide)
  have htext : (Expr.paren e).text.toList = ['('] ++ (e.text.toList ++ [')']) := by
    show ("(" ++ e.text ++ ")").toList = _
    simp [String.toList_append]
  rw [htext]
  refine ⟨_, (hleft.append (hls.append_cons hright rfl)).spells, ?_⟩
  intro ts hts
  obtain ⟨left, us, rfl, hkindl, -, hus⟩ := exists_of_map_lexeme_eq_cons hts
  obtain ⟨vs, right, ws, rfl, hvs, hkindr, -, hws⟩ := exists_of_map_lexeme_eq hus
  obtain rfl := List.map_eq_nil_iff.1 hws
  exact .paren hkindl (hderives vs hvs) hkindr

/-- Further arguments begin with a comma. -/
theorem stops_moreArguments (es : List Expr) : stops (Phrase.text .moreArguments es) = true := by
  cases es with
  | nil => rfl
  | cons e es => rfl

theorem prints_arguments (he : Prints (Derives .expression) e.text.toList [e])
    (hes : Prints (Derives .moreArguments) (Phrase.text .moreArguments es) es) :
    Prints (Derives .arguments) (Phrase.text .arguments (e :: es)) (e :: es) := by
  obtain ⟨le, hle, hderivese⟩ := he
  obtain ⟨ls, hls, hderives⟩ := hes
  have htext : Phrase.text .arguments (e :: es) =
      e.text.toList ++ Phrase.text .moreArguments es := by
    show (", ".intercalate (e.text :: es.map Expr.text)).toList = _
    rw [toList_intercalate_cons, List.flatMap_map]
    rfl
  rw [htext]
  refine ⟨_, hle.append hls (stops_moreArguments es), ?_⟩
  intro ts hts
  obtain ⟨us, vs, rfl, hus, hvs⟩ := List.map_eq_append_iff.1 hts
  exact .argument (hderivese us hus) (hderives vs hvs)

theorem prints_more (he : Prints (Derives .expression) e.text.toList [e])
    (hes : Prints (Derives .moreArguments) (Phrase.text .moreArguments es) es) :
    Prints (Derives .moreArguments) (Phrase.text .moreArguments (e :: es)) (e :: es) := by
  obtain ⟨le, hle, hderivese⟩ := he
  obtain ⟨ls, hls, hderives⟩ := hes
  have hcomma : SpellsAny [',', ' '] [(.comma, [','])] := spellsAny_symbol .comma (by decide)
  have htext : Phrase.text .moreArguments (e :: es) =
      [',', ' '] ++ (e.text.toList ++ Phrase.text .moreArguments es) := rfl
  rw [htext]
  refine ⟨_, hcomma.append_spells (hle.append hls (stops_moreArguments es)), ?_⟩
  intro ts hts
  obtain ⟨comma, us, rfl, hkind, -, hus⟩ := exists_of_map_lexeme_eq_cons hts
  have hus : us.map Token.lexeme = le ++ ls := hus
  obtain ⟨us, vs, rfl, hus, hvs⟩ := List.map_eq_append_iff.1 hus
  exact .more hkind (hderivese us hus) (hderives vs hvs)

theorem prints_index (he : Prints (Derives .expression) e.text.toList [e])
    (hes : Prints (Derives .indices) (Phrase.text .indices es) es) :
    Prints (Derives .indices) (Phrase.text .indices (e :: es)) (e :: es) := by
  obtain ⟨le, hle, hderivese⟩ := he
  obtain ⟨ls, hls, hderives⟩ := hes
  have hleft : SpellsAny ['['] [(.leftBracket, ['['])] :=
    spellsAny_solitary .leftBracket (by decide)
  have hright : SpellsAny [']'] [(.rightBracket, [']'])] :=
    spellsAny_solitary .rightBracket (by decide)
  have htext : Phrase.text .indices (e :: es) =
      ['['] ++ (e.text.toList ++ [']']) ++ Phrase.text .indices es := rfl
  rw [htext]
  refine ⟨_, (hleft.append (hle.append_cons hright rfl)).append_spells hls, ?_⟩
  intro ts hts
  rw [List.append_assoc, List.append_assoc] at hts
  obtain ⟨left, us, rfl, hkindl, -, hus⟩ := exists_of_map_lexeme_eq_cons hts
  obtain ⟨vs, right, ws, rfl, hvs, hkindr, -, hws⟩ := exists_of_map_lexeme_eq hus
  exact .index hkindl (hderivese vs hvs) hkindr (hderives ws hws)

/-- **The text of what follows the grammar is cut into tokens that stand for it.** -/
theorem prints_of_derives {phrase : Phrase} (h : Derives phrase ts es) (hnames : Named ts)
    (hknown : phrase.Known) (hfinite : ∀ e ∈ es, e.Finite) :
    Prints (Derives phrase) (phrase.text es) es := by
  have hlevels : (Phrase.joined operatorLevels).Known := by
    unfold Phrase.Known
    decide
  induction h with
  | plain _ ih =>
    obtain ⟨ls, hspells, hderives⟩ := ih hnames hlevels hfinite
    exact ⟨ls, hspells, fun ts hts => .plain (hderives ts hts)⟩
  | @conditional ts us vs question colon c t f _ _ _ _ _ ihc iht ihf =>
    rw [named_append, named_cons, named_append, named_cons] at hnames
    obtain ⟨hts, -, hus, -, hvs⟩ := hnames
    have hparts := (hfinite _ List.mem_cons_self).parts
    have hc := ihc hts hlevels (List.forall_mem_singleton.2 (hparts _ (.head _)))
    have ht := iht hus trivial (List.forall_mem_singleton.2 (hparts _ (.tail _ (.head _))))
    have hf := ihf hvs trivial
      (List.forall_mem_singleton.2 (hparts _ (.tail _ (.tail _ (.head _)))))
    rw [Phrase.text_singleton rfl] at hc ht hf ⊢
    exact prints_conditional hc ht hf
  | unjoined _ ih =>
    obtain ⟨ls, hspells, hderives⟩ := ih hnames trivial hfinite
    exact ⟨ls, hspells, fun ts hts => .unjoined (hderives ts hts)⟩
  | tighter _ ih =>
    obtain ⟨ls, hspells, hderives⟩ :=
      ih hnames (fun l hl => hknown l (List.mem_cons_of_mem _ hl)) hfinite
    exact ⟨ls, hspells, fun ts hts => .tighter (hderives ts hts)⟩
  | @operator level levels ts us sign op l r _ hop _ ihl ihr =>
    rw [named_append, named_cons] at hnames
    obtain ⟨hts, -, hus⟩ := hnames
    have hparts := (hfinite _ List.mem_cons_self).parts
    have hl := ihl hts hknown (List.forall_mem_singleton.2 (hparts _ (.head _)))
    have hr := ihr hus (fun l hl => hknown l (List.mem_cons_of_mem _ hl))
      (List.forall_mem_singleton.2 (hparts _ (.tail _ (.head _))))
    rw [Phrase.text_singleton rfl] at hl hr ⊢
    obtain ⟨hk, hsymbol⟩ := hknown level List.mem_cons_self _ (mem_of_lookup_eq_some hop)
    exact prints_operator hk hsymbol hop hl hr
  | unsigned _ ih =>
    obtain ⟨ls, hspells, hderives⟩ := ih hnames trivial hfinite
    exact ⟨ls, hspells, fun ts hts => .unsigned (hderives ts hts)⟩
  | @minus ts minus e hminus h ih =>
    -- The sign may have been folded, so the text is that of the folded literal.
    have hnegated := hfinite _ List.mem_cons_self
    have he := ih (named_cons.1 hnames).2 trivial
      (List.forall_mem_singleton.2 (finite_of_finite_negated hnegated))
    rw [Phrase.text_singleton rfl] at he ⊢
    exact prints_negated he (fun v hv => h.natAbs_le (hv ▸ List.mem_cons_self)) hnegated
  | @int t ht hrange =>
    rw [Phrase.text_singleton rfl]
    exact prints_natural hrange
  | @double t ht =>
    rw [Phrase.text_singleton rfl]
    exact prints_unsigned rfl (Expr.finite_double.1 (hfinite _ List.mem_cons_self))
  | @name t ht =>
    rw [Phrase.text_singleton rfl]
    exact prints_name ((named_cons.1 hnames).1 ht)
  | @call t left right ts es ht hleft h hright ih =>
    rw [named_cons, named_cons, named_append] at hnames
    obtain ⟨hname, -, hts, -⟩ := hnames
    rw [Phrase.text_singleton rfl]
    exact prints_call (hname ht)
      (ih hts trivial (hfinite _ List.mem_cons_self).parts)
  | @access t ts is ht h hsome ih =>
    obtain ⟨hname, hts⟩ := named_cons.1 hnames
    rw [Phrase.text_singleton rfl]
    exact prints_access (hname ht) hsome
      (ih hts trivial (hfinite _ List.mem_cons_self).parts)
  | @paren left right ts e hleft h hright ih =>
    rw [named_cons, named_append] at hnames
    have hparts := (hfinite _ List.mem_cons_self).parts
    have he := ih hnames.2.1 trivial (List.forall_mem_singleton.2 (hparts _ (.head _)))
    rw [Phrase.text_singleton rfl] at he ⊢
    exact prints_paren he
  | noArguments => exact prints_nil .noArguments
  | @argument ts us e es _ _ ihe ihes =>
    obtain ⟨hts, hus⟩ := named_append.1 hnames
    obtain ⟨hfinitee, hfinitees⟩ := List.forall_mem_cons.1 hfinite
    have he := ihe hts trivial (List.forall_mem_singleton.2 hfinitee)
    rw [Phrase.text_singleton rfl] at he
    exact prints_arguments he (ihes hus trivial hfinitees)
  | noMore => exact prints_nil .noMore
  | @more ts us comma e es hcomma _ _ ihe ihes =>
    rw [named_cons, named_append] at hnames
    obtain ⟨-, hts, hus⟩ := hnames
    obtain ⟨hfinitee, hfinitees⟩ := List.forall_mem_cons.1 hfinite
    have he := ihe hts trivial (List.forall_mem_singleton.2 hfinitee)
    rw [Phrase.text_singleton rfl] at he
    exact prints_more he (ihes hus trivial hfinitees)
  | noIndex => exact prints_nil .noIndex
  | @index ts us left right e es hleft _ hright _ ihe ihes =>
    rw [named_cons, named_append, named_cons] at hnames
    obtain ⟨-, hts, -, hus⟩ := hnames
    obtain ⟨hfinitee, hfinitees⟩ := List.forall_mem_cons.1 hfinite
    have he := ihe hts trivial (List.forall_mem_singleton.2 hfinitee)
    rw [Phrase.text_singleton rfl] at he
    exact prints_index he (ihes hus trivial hfinitees)

end Listing

end ParLoop
