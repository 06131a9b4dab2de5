import ParLoop.Proofs.Listing.Collected
import ParLoop.Proofs.Outcome

/-!
# What the parser accepts follows the grammar

If a phrase is read, the tokens that it took stand for what was read (`sound_expression`,
`sound_instruction`, `sound_item`), and so do the tokens of a whole listing, up to its end
(`derivesProgram_of_parse`).
-/

namespace ParLoop.Listing

/-- The tokens and faults that are still to be read. -/
abbrev Stream := List (Except ScanError Token)

variable {α : Type} {s s' : Stream} {t : Token}

/-! ### Single tokens -/

theorem peek_eq_ok (h : peek s = .ok (t, s')) :
    s = s' ∧ ((∃ rest, s = .ok t :: rest) ∨ t.kind = .endOfText) := by
  cases s with
  | nil =>
    cases h
    exact ⟨rfl, Or.inr rfl⟩
  | cons r rest =>
    cases r with
    | error e => cases h
    | ok t' =>
      cases h
      exact ⟨rfl, Or.inl ⟨rest, rfl⟩⟩

/-- The current token stands at the front, unless the text is at its end. -/
theorem eq_cons_of_peek (h : peek s = .ok (t, s')) (ht : t.kind ≠ .endOfText) :
    s = s' ∧ ∃ rest, s = .ok t :: rest := by
  obtain ⟨hs, hrest | hend⟩ := peek_eq_ok h
  · exact ⟨hs, hrest⟩
  · exact absurd hend ht

theorem failAt_ne_ok {span : Span} {cause : ParseCause} {r : α × Stream} :
    failAt span cause s ≠ .ok r := by
  intro h
  obtain ⟨t, s1, -, h⟩ := Outcome.stateT_bind_eq_ok h
  cases h

theorem fail_ne_ok {cause : ParseCause} {r : α × Stream} : fail cause s ≠ .ok r := by
  intro h
  obtain ⟨t, s1, -, h⟩ := Outcome.stateT_bind_eq_ok h
  exact failAt_ne_ok h

theorem at?_eq_ok {kind : TokenKind} {b : Bool} (h : at? kind s = .ok (b, s')) :
    ∃ t, peek s = .ok (t, s) ∧ s = s' ∧ b = (t.kind == kind) := by
  obtain ⟨t, s1, hpeek, h⟩ := Outcome.stateT_bind_eq_ok h
  obtain ⟨rfl, -⟩ := peek_eq_ok hpeek
  cases h
  exact ⟨t, hpeek, rfl, rfl⟩

theorem advance_bind_eq_ok {f : Unit → Parse α} {r : α × Stream}
    (h : (advance >>= f) (.ok t :: s) = .ok r) : f () s = .ok r := h

theorem accept_eq_true {kind : TokenKind} (hkind : kind ≠ .endOfText)
    (h : accept kind s = .ok (true, s')) : ∃ t, s = .ok t :: s' ∧ t.kind = kind := by
  obtain ⟨here, s1, hat, h⟩ := Outcome.stateT_bind_eq_ok h
  obtain ⟨t, hpeek, rfl, rfl⟩ := at?_eq_ok hat
  split at h
  case isTrue hk =>
    rw [beq_iff_eq] at hk
    obtain ⟨-, rest, rfl⟩ := eq_cons_of_peek hpeek (hk ▸ hkind)
    cases h
    exact ⟨t, rfl, hk⟩
  case isFalse => cases h

theorem accept_eq_false {kind : TokenKind} (h : accept kind s = .ok (false, s')) : s = s' := by
  obtain ⟨here, s1, hat, h⟩ := Outcome.stateT_bind_eq_ok h
  obtain ⟨t, -, rfl, rfl⟩ := at?_eq_ok hat
  split at h
  case isTrue => cases h
  case isFalse =>
    cases h
    rfl

theorem expect_eq_ok {kind : TokenKind} (hkind : kind ≠ .endOfText) {place : String} {u : Unit}
    (h : expect kind place s = .ok (u, s')) : ∃ t, s = .ok t :: s' ∧ t.kind = kind := by
  obtain ⟨here, s1, hat, h⟩ := Outcome.stateT_bind_eq_ok h
  obtain ⟨t, hpeek, rfl, rfl⟩ := at?_eq_ok hat
  split at h
  case isTrue hk =>
    rw [beq_iff_eq] at hk
    obtain ⟨-, rest, rfl⟩ := eq_cons_of_peek hpeek (hk ▸ hkind)
    cases h
    exact ⟨t, rfl, hk⟩
  case isFalse => exact absurd h fail_ne_ok

theorem expectName_eq_ok {what x : String} (h : expectName what s = .ok (x, s')) :
    ∃ t, s = .ok t :: s' ∧ t.kind = .identifier ∧ x = t.text := by
  obtain ⟨t, s1, hpeek, h⟩ := Outcome.stateT_bind_eq_ok h
  split at h
  case isTrue hk =>
    obtain ⟨rfl, rest, rfl⟩ := eq_cons_of_peek hpeek (by rw [hk]; decide)
    cases h
    exact ⟨t, rfl, hk, rfl⟩
  case isFalse => exact absurd h fail_ne_ok

/-! ### Repetition -/

/-- What a reader takes stands for what it answers. -/
def Sound (m : Parse α) (form : List Token → α → Prop) : Prop :=
  ∀ s x s', m s = .ok (x, s') → ∃ ts, s = ts.map .ok ++ s' ∧ form ts x

theorem sound_many {more : Token → Bool} {item : Parse α} {form : List Token → α → Prop}
    (h : ∀ s t x s', peek s = .ok (t, s) → more t = true → item s = .ok (x, s') →
      ∃ ts, s = ts.map .ok ++ s' ∧ form ts x) (n : Nat) :
    Sound (many more item n) (Repeated form) := by
  induction n with
  | zero =>
    intro s xs s' hrun
    cases hrun
    exact ⟨[], rfl, .nil⟩
  | succ n ih =>
    intro s xs s' hrun
    rw [many] at hrun
    obtain ⟨t, s1, hpeek, hrun⟩ := Outcome.stateT_bind_eq_ok hrun
    obtain ⟨rfl, -⟩ := peek_eq_ok hpeek
    split at hrun
    case isTrue hmore =>
      obtain ⟨x, s2, hx, hrun⟩ := Outcome.stateT_bind_eq_ok hrun
      obtain ⟨ys, s3, hys, hrun⟩ := Outcome.stateT_bind_eq_ok hrun
      cases hrun
      obtain ⟨ts, rfl, hts⟩ := h _ t x s2 hpeek hmore hx
      obtain ⟨us, rfl, hus⟩ := ih s2 ys _ hys
      exact ⟨ts ++ us, by simp, .cons hts hus⟩
    case isFalse =>
      cases hrun
      exact ⟨[], rfl, .nil⟩

theorem sound_manyWhile {more : Token → Bool} {item : Parse α} {form : List Token → α → Prop}
    (h : ∀ s t x s', peek s = .ok (t, s) → more t = true → item s = .ok (x, s') →
      ∃ ts, s = ts.map .ok ++ s' ∧ form ts x) : Sound (manyWhile more item) (Repeated form) :=
  fun s xs s' hrun => sound_many h s.length s xs s' hrun

/-- Where the current token passes the test, something is read. -/
theorem manyWhile_ne_nil {more : Token → Bool} {item : Parse α} {rest : Stream} {xs : List α}
    (hmore : more t = true) (h : manyWhile more item (.ok t :: rest) = .ok (xs, s')) :
    xs ≠ [] := by
  have h : many more item (rest.length + 1) (.ok t :: rest) = .ok (xs, s') := h
  rw [many] at h
  obtain ⟨t', s1, hpeek, h⟩ := Outcome.stateT_bind_eq_ok h
  cases hpeek
  rw [if_pos hmore] at h
  obtain ⟨x, s2, -, h⟩ := Outcome.stateT_bind_eq_ok h
  obtain ⟨ys, s3, -, h⟩ := Outcome.stateT_bind_eq_ok h
  cases h
  exact List.cons_ne_nil _ _

theorem sound_commaSeparated {item : Parse α} {form : List Token → α → Prop}
    (h : Sound item form) : Sound (commaSeparated item) (Separated form) := by
  intro s xs s' hrun
  obtain ⟨x, s1, hx, hrun⟩ := Outcome.stateT_bind_eq_ok hrun
  obtain ⟨ys, s2, hys, hrun⟩ := Outcome.stateT_bind_eq_ok hrun
  cases hrun
  obtain ⟨ts, rfl, hts⟩ := h s x s1 hx
  have hrest : Sound (manyWhile (·.kind == .comma) (do advance; item))
      (Repeated (AfterComma form)) := by
    refine sound_manyWhile fun s t x s' hpeek hcomma hitem => ?_
    rw [beq_iff_eq] at hcomma
    obtain ⟨-, rest, rfl⟩ := eq_cons_of_peek hpeek (by rw [hcomma]; decide)
    obtain ⟨us, hus, hform⟩ := h rest x s' hitem
    exact ⟨t :: us, by simp [hus], t, us, rfl, hcomma, hform⟩
  obtain ⟨us, rfl, hus⟩ := hrest s1 ys _ hys
  exact ⟨ts ++ us, by simp, ts, us, x, ys, rfl, rfl, hts, hus⟩

/-! ### Expressions -/

theorem sound_binary {operand : Parse Expr} (h : Sound operand fun ts e => Derives .operand ts [e])
    {levels : List (List (TokenKind × BinaryOp))}
    (hlevels : ∀ level ∈ levels, level.lookup .endOfText = none) :
    Sound (binary operand levels) fun ts e => Derives (.joined levels) ts [e] := by
  induction levels with
  | nil =>
    intro s e s' hrun
    obtain ⟨ts, hs, hts⟩ := h s e s' hrun
    exact ⟨ts, hs, .unjoined hts⟩
  | cons level levels ih =>
    have htighter := ih fun l hl => hlevels l (List.mem_cons_of_mem _ hl)
    intro s e s' hrun
    obtain ⟨first, s1, hfirst, hrun⟩ := Outcome.stateT_bind_eq_ok hrun
    obtain ⟨rest, s2, hrest, hrun⟩ := Outcome.stateT_bind_eq_ok hrun
    cases hrun
    have hoperation : Sound (manyWhile (fun t => (level.lookup t.kind).isSome)
        (operation level (binary operand levels)))
        (Repeated (DerivesOperation level levels)) := by
      refine sound_manyWhile fun s t r s' hpeek hmore hrun => ?_
      -- The end of the text is no operator, so a token was there.
      have hend : t.kind ≠ .endOfText := by
        intro hend
        rw [hend, hlevels level List.mem_cons_self] at hmore
        cases hmore
      obtain ⟨-, rest, rfl⟩ := eq_cons_of_peek hpeek hend
      obtain ⟨t', s1, hpeek', hrun⟩ := Outcome.stateT_bind_eq_ok hrun
      cases hpeek'
      obtain ⟨op, hop⟩ := Option.isSome_iff_exists.1 hmore
      rw [hop] at hrun
      have hrun := advance_bind_eq_ok hrun
      obtain ⟨right, s2, hright, hrun⟩ := Outcome.stateT_bind_eq_ok hrun
      cases hrun
      obtain ⟨us, hs, hus⟩ := htighter rest right _ hright
      exact ⟨t :: us, by simp [hs], t, us, rfl, hop, hus⟩
    obtain ⟨ts, hs, hts⟩ := htighter s first s1 hfirst
    obtain ⟨us, hs1, hus⟩ := hoperation s1 rest _ hrest
    exact ⟨ts ++ us, by simp [hs, hs1], hts.tighter.foldl_operation hus⟩

section

variable {expression : Parse Expr} (hexpression : Sound expression DerivesExpr)

include hexpression

theorem sound_arguments : Sound (arguments expression) (Derives .arguments) := by
  intro s es s' hrun
  obtain ⟨b, s1, hat, hrun⟩ := Outcome.stateT_bind_eq_ok hrun
  obtain ⟨t, -, rfl, rfl⟩ := at?_eq_ok hat
  split at hrun
  case isTrue =>
    cases hrun
    exact ⟨[], rfl, .noArguments⟩
  case isFalse =>
    obtain ⟨ts, hs, us, vs, e, es, rfl, rfl, he, hes⟩ :=
      sound_commaSeparated hexpression s es s' hrun
    exact ⟨us ++ vs, hs, .argument he (.moreArguments_iff.2 hes)⟩

theorem sound_indices : Sound (indices expression) (Repeated DerivesIndex) := by
  refine sound_manyWhile fun s t e s' hpeek hleft hrun => ?_
  rw [beq_iff_eq] at hleft
  obtain ⟨-, rest, rfl⟩ := eq_cons_of_peek hpeek (by rw [hleft]; decide)
  have hrun := advance_bind_eq_ok hrun
  obtain ⟨e, s2, he, hrun⟩ := Outcome.stateT_bind_eq_ok hrun
  obtain ⟨⟨⟩, s3, hexpect, hrun⟩ := Outcome.stateT_bind_eq_ok hrun
  cases hrun
  obtain ⟨ts, rfl, hts⟩ := hexpression rest e s2 he
  obtain ⟨right, rfl, hright⟩ := expect_eq_ok (by decide) hexpect
  exact ⟨t :: (ts ++ [right]), by simp, t, ts, right, rfl, hleft, hts, hright⟩

theorem sound_primary : Sound (primary expression) fun ts e => Derives .primary ts [e] := by
  intro s e s' hrun
  obtain ⟨t, s1, hpeek, hrun⟩ := Outcome.stateT_bind_eq_ok hrun
  cases ht : t.kind with
  | integer =>
    rw [ht] at hrun
    dsimp only at hrun
    obtain ⟨rfl, rest, rfl⟩ := eq_cons_of_peek hpeek (by rw [ht]; decide)
    split at hrun
    case isTrue hrange =>
      cases hrun
      exact ⟨[t], rfl, .int ht hrange⟩
    case isFalse => exact absurd hrun fail_ne_ok
  | float =>
    rw [ht] at hrun
    obtain ⟨rfl, rest, rfl⟩ := eq_cons_of_peek hpeek (by rw [ht]; decide)
    cases hrun
    exact ⟨[t], rfl, .double ht⟩
  | identifier =>
    rw [ht] at hrun
    obtain ⟨rfl, rest, rfl⟩ := eq_cons_of_peek hpeek (by rw [ht]; decide)
    have hrun := advance_bind_eq_ok hrun
    obtain ⟨b, s2, haccept, hrun⟩ := Outcome.stateT_bind_eq_ok hrun
    cases b with
    | true =>
      obtain ⟨left, hs, hleft⟩ := accept_eq_true (by decide) haccept
      obtain ⟨es, s3, hes, hrun⟩ := Outcome.stateT_bind_eq_ok hrun
      obtain ⟨⟨⟩, s4, hexpect, hrun⟩ := Outcome.stateT_bind_eq_ok hrun
      cases hrun
      obtain ⟨ts, hs2, hts⟩ := sound_arguments hexpression s2 es s3 hes
      obtain ⟨right, hs3, hright⟩ := expect_eq_ok (by decide) hexpect
      exact ⟨t :: left :: (ts ++ [right]), by simp [hs, hs2, hs3], .call ht hleft hts hright⟩
    | false =>
      obtain rfl := accept_eq_false haccept
      obtain ⟨b, s3, hat, hrun⟩ := Outcome.stateT_bind_eq_ok hrun
      obtain ⟨u, hu, rfl, rfl⟩ := at?_eq_ok hat
      split at hrun
      case isTrue hbracket =>
        obtain ⟨is, s4, his, hrun⟩ := Outcome.stateT_bind_eq_ok hrun
        cases hrun
        obtain ⟨ts, hs, hts⟩ := sound_indices hexpression rest is _ his
        rw [beq_iff_eq] at hbracket
        obtain ⟨-, rest', rfl⟩ := eq_cons_of_peek hu (by rw [hbracket]; decide)
        -- A bracket was seen, so the list of indices is not empty.
        have hmore : (fun t : Token => t.kind == .leftBracket) u = true := beq_iff_eq.2 hbracket
        have hsome := manyWhile_ne_nil hmore his
        exact ⟨t :: ts, by simp [hs], .access ht (.indices_iff.2 hts) hsome⟩
      case isFalse =>
        cases hrun
        exact ⟨[t], rfl, .name ht⟩
  | leftParen =>
    rw [ht] at hrun
    obtain ⟨rfl, rest, rfl⟩ := eq_cons_of_peek hpeek (by rw [ht]; decide)
    have hrun := advance_bind_eq_ok hrun
    obtain ⟨e, s3, he, hrun⟩ := Outcome.stateT_bind_eq_ok hrun
    obtain ⟨⟨⟩, s4, hexpect, hrun⟩ := Outcome.stateT_bind_eq_ok hrun
    cases hrun
    obtain ⟨ts, hs, hts⟩ := hexpression rest e s3 he
    obtain ⟨right, hs3, hright⟩ := expect_eq_ok (by decide) hexpect
    exact ⟨t :: (ts ++ [right]), by simp [hs, hs3], .paren ht hts hright⟩
  | _ =>
    rw [ht] at hrun
    exact absurd hrun fail_ne_ok

theorem sound_unary : Sound (unary expression) fun ts e => Derives .operand ts [e] := by
  intro s e s' hrun
  obtain ⟨signs, s1, hsigns, hrun⟩ := Outcome.stateT_bind_eq_ok hrun
  obtain ⟨operand, s2, hoperand, hrun⟩ := Outcome.stateT_bind_eq_ok hrun
  cases hrun
  have hminus : Sound (manyWhile (·.kind == .minus) advance) (Repeated DerivesMinus) := by
    refine sound_manyWhile fun s t _ s' hpeek hmore hrun => ?_
    rw [beq_iff_eq] at hmore
    obtain ⟨-, rest, rfl⟩ := eq_cons_of_peek hpeek (by rw [hmore]; decide)
    cases hrun
    exact ⟨[t], rfl, t, rfl, hmore⟩
  obtain ⟨ts, hs, hts⟩ := hminus s signs s1 hsigns
  obtain ⟨us, hs1, hus⟩ := sound_primary hexpression s1 operand _ hoperand
  exact ⟨ts ++ us, by simp [hs, hs1], .foldl_minus hts (.unsigned hus)⟩

theorem sound_conditional : Sound (conditional expression) DerivesExpr := by
  intro s e s' hrun
  obtain ⟨test, s1, htest, hrun⟩ := Outcome.stateT_bind_eq_ok hrun
  obtain ⟨ts, hs, hts⟩ := sound_binary (sound_unary hexpression) (by decide) s test s1 htest
  obtain ⟨b, s2, haccept, hrun⟩ := Outcome.stateT_bind_eq_ok hrun
  cases b with
  | true =>
    obtain ⟨question, hs1, hquestion⟩ := accept_eq_true (by decide) haccept
    obtain ⟨whenTrue, s3, htrue, hrun⟩ := Outcome.stateT_bind_eq_ok hrun
    obtain ⟨⟨⟩, s4, hexpect, hrun⟩ := Outcome.stateT_bind_eq_ok hrun
    obtain ⟨whenFalse, s5, hfalse, hrun⟩ := Outcome.stateT_bind_eq_ok hrun
    cases hrun
    obtain ⟨us, hs2, hus⟩ := hexpression s2 whenTrue s3 htrue
    obtain ⟨colon, hs3, hcolon⟩ := expect_eq_ok (by decide) hexpect
    obtain ⟨vs, hs4, hvs⟩ := hexpression s4 whenFalse _ hfalse
    exact ⟨ts ++ question :: (us ++ colon :: vs), by simp [hs, hs1, hs2, hs3, hs4],
      .conditional hts hquestion hus hcolon hvs⟩
  | false =>
    obtain rfl := accept_eq_false haccept
    cases hrun
    exact ⟨ts, hs, .plain hts⟩

end

theorem sound_expressionWithin (n : Nat) : Sound (expressionWithin n) DerivesExpr := by
  induction n with
  | zero => exact fun s e s' hrun => absurd hrun fail_ne_ok
  | succ n ih => exact sound_conditional ih

/-- What is read as an expression stands for it. -/
theorem sound_expression : Sound expression DerivesExpr :=
  fun s e s' hrun => sound_expressionWithin s.length s e s' hrun

/-! ### Instructions -/

/-- What follows the target of an assignment. -/
def assignedTo (start : Span) (target : Expr) : Parse Instr := do
  let t ← peek
  if t.kind = .equal then
    advance
    let value ← expression
    expect .semicolon " after assignment"
    pure (.assign target value)
  else
    failAt (start.merge t.span) .target

theorem assignedTo_eq_ok {start : Span} {target : Expr} {i : Instr}
    (h : assignedTo start target s = .ok (i, s')) :
    ∃ equal ts semicolon v, s = .ok equal :: (ts.map .ok ++ .ok semicolon :: s') ∧
      equal.kind = .equal ∧ DerivesExpr ts v ∧ semicolon.kind = .semicolon ∧
      i = .assign target v := by
  obtain ⟨t, s1, hpeek, hrun⟩ := Outcome.stateT_bind_eq_ok h
  split at hrun
  case isTrue ht =>
    obtain ⟨rfl, rest, rfl⟩ := eq_cons_of_peek hpeek (by rw [ht]; decide)
    have hrun := advance_bind_eq_ok hrun
    obtain ⟨v, s2, hv, hrun⟩ := Outcome.stateT_bind_eq_ok hrun
    obtain ⟨⟨⟩, s3, hexpect, hrun⟩ := Outcome.stateT_bind_eq_ok hrun
    cases hrun
    obtain ⟨ts, hs, hts⟩ := sound_expression rest v s2 hv
    obtain ⟨semicolon, hs2, hsemicolon⟩ := expect_eq_ok (by decide) hexpect
    exact ⟨t, ts, semicolon, v, by rw [hs, hs2], ht, hts, hsemicolon, rfl⟩
  case isFalse => exact absurd hrun failAt_ne_ok

theorem sound_labelOrAssignment : Sound labelOrAssignment DerivesInstr := by
  intro s i s' hrun
  obtain ⟨t0, s0, hpeek, hrun⟩ := Outcome.stateT_bind_eq_ok hrun
  obtain ⟨rfl, -⟩ := peek_eq_ok hpeek
  obtain ⟨name, s1, hname, hrun⟩ := Outcome.stateT_bind_eq_ok hrun
  obtain ⟨x, hs, hx, rfl⟩ := expectName_eq_ok hname
  obtain ⟨b, s2, haccept, hrun⟩ := Outcome.stateT_bind_eq_ok hrun
  cases b with
  | true =>
    obtain ⟨colon, hs1, hcolon⟩ := accept_eq_true (by decide) haccept
    cases hrun
    exact ⟨[x, colon], by simp [hs, hs1], .label hx hcolon⟩
  | false =>
    obtain rfl := accept_eq_false haccept
    obtain ⟨b, s3, hat, hrun⟩ := Outcome.stateT_bind_eq_ok hrun
    obtain ⟨u, hu, rfl, rfl⟩ := at?_eq_ok hat
    split at hrun
    case isTrue hbracket =>
      obtain ⟨is, s2, his, hrun⟩ := Outcome.stateT_bind_eq_ok hrun
      have hrun : assignedTo t0.span (.access x.text is) s2 = .ok (i, s') := hrun
      obtain ⟨equal, ts, semicolon, v, hs2, hequal, hts, hsemicolon, rfl⟩ := assignedTo_eq_ok hrun
      obtain ⟨us, hs1, hus⟩ := sound_indices sound_expression s1 is s2 his
      rw [beq_iff_eq] at hbracket
      obtain ⟨-, rest, rfl⟩ := eq_cons_of_peek hu (by rw [hbracket]; decide)
      have hmore : (fun t : Token => t.kind == .leftBracket) u = true := beq_iff_eq.2 hbracket
      have hsome := manyWhile_ne_nil hmore his
      exact ⟨x :: (us ++ equal :: (ts ++ [semicolon])), by simp [hs, hs1, hs2],
        .store hx (.indices_iff.2 hus) hsome hequal hts hsemicolon⟩
    case isFalse =>
      have hrun : assignedTo t0.span (.var x.text) s1 = .ok (i, s') := hrun
      obtain ⟨equal, ts, semicolon, v, hs1, hequal, hts, hsemicolon, rfl⟩ := assignedTo_eq_ok hrun
      exact ⟨x :: equal :: (ts ++ [semicolon]), by simp [hs, hs1],
        .assign hx hequal hts hsemicolon⟩

theorem sound_instruction : Sound instruction DerivesInstr := by
  intro s i s' hrun
  obtain ⟨t, s1, hpeek, hrun⟩ := Outcome.stateT_bind_eq_ok hrun
  cases ht : t.kind with
  | varWord =>
    rw [ht] at hrun
    obtain ⟨rfl, rest, rfl⟩ := eq_cons_of_peek hpeek (by rw [ht]; decide)
    have hrun := advance_bind_eq_ok hrun
    obtain ⟨name, s2, hname, hrun⟩ := Outcome.stateT_bind_eq_ok hrun
    obtain ⟨⟨⟩, s3, hexpect, hrun⟩ := Outcome.stateT_bind_eq_ok hrun
    cases hrun
    obtain ⟨x, hs, hx, rfl⟩ := expectName_eq_ok hname
    obtain ⟨semicolon, hs2, hsemicolon⟩ := expect_eq_ok (by decide) hexpect
    exact ⟨[t, x, semicolon], by simp [hs, hs2], .declare ht hx hsemicolon⟩
  | gotoWord =>
    rw [ht] at hrun
    obtain ⟨rfl, rest, rfl⟩ := eq_cons_of_peek hpeek (by rw [ht]; decide)
    have hrun := advance_bind_eq_ok hrun
    obtain ⟨name, s2, hname, hrun⟩ := Outcome.stateT_bind_eq_ok hrun
    obtain ⟨⟨⟩, s3, hexpect, hrun⟩ := Outcome.stateT_bind_eq_ok hrun
    cases hrun
    obtain ⟨l, hs, hl, rfl⟩ := expectName_eq_ok hname
    obtain ⟨semicolon, hs2, hsemicolon⟩ := expect_eq_ok (by decide) hexpect
    exact ⟨[t, l, semicolon], by simp [hs, hs2], .jump ht hl hsemicolon⟩
  | ifWord =>
    rw [ht] at hrun
    obtain ⟨rfl, rest, rfl⟩ := eq_cons_of_peek hpeek (by rw [ht]; decide)
    have hrun := advance_bind_eq_ok hrun
    obtain ⟨c, s2, hc, hrun⟩ := Outcome.stateT_bind_eq_ok hrun
    obtain ⟨⟨⟩, s3, hword, hrun⟩ := Outcome.stateT_bind_eq_ok hrun
    obtain ⟨name, s4, hname, hrun⟩ := Outcome.stateT_bind_eq_ok hrun
    obtain ⟨⟨⟩, s5, hexpect, hrun⟩ := Outcome.stateT_bind_eq_ok hrun
    cases hrun
    obtain ⟨ts, hs, hts⟩ := sound_expression rest c s2 hc
    obtain ⟨goto, hs2, hgoto⟩ := expect_eq_ok (by decide) hword
    obtain ⟨l, hs3, hl, rfl⟩ := expectName_eq_ok hname
    obtain ⟨semicolon, hs4, hsemicolon⟩ := expect_eq_ok (by decide) hexpect
    exact ⟨t :: (ts ++ [goto, l, semicolon]), by simp [hs, hs2, hs3, hs4],
      .branch ht hts hgoto hl hsemicolon⟩
  | callWord =>
    rw [ht] at hrun
    obtain ⟨rfl, rest, rfl⟩ := eq_cons_of_peek hpeek (by rw [ht]; decide)
    have hrun := advance_bind_eq_ok hrun
    obtain ⟨name, s2, hname, hrun⟩ := Outcome.stateT_bind_eq_ok hrun
    obtain ⟨⟨⟩, s3, hopen, hrun⟩ := Outcome.stateT_bind_eq_ok hrun
    obtain ⟨es, s4, hes, hrun⟩ := Outcome.stateT_bind_eq_ok hrun
    obtain ⟨⟨⟩, s5, hclose, hrun⟩ := Outcome.stateT_bind_eq_ok hrun
    obtain ⟨⟨⟩, s6, hexpect, hrun⟩ := Outcome.stateT_bind_eq_ok hrun
    cases hrun
    obtain ⟨f, hs, hf, rfl⟩ := expectName_eq_ok hname
    obtain ⟨left, hs2, hleft⟩ := expect_eq_ok (by decide) hopen
    obtain ⟨ts, hs3, hts⟩ := sound_arguments sound_expression s3 es s4 hes
    obtain ⟨right, hs4, hright⟩ := expect_eq_ok (by decide) hclose
    obtain ⟨semicolon, hs5, hsemicolon⟩ := expect_eq_ok (by decide) hexpect
    exact ⟨t :: f :: left :: (ts ++ [right, semicolon]), by simp [hs, hs2, hs3, hs4, hs5],
      .call ht hf hleft hts hright hsemicolon⟩
  | identifier =>
    rw [ht] at hrun
    obtain ⟨rfl, -⟩ := peek_eq_ok hpeek
    exact sound_labelOrAssignment s i s' hrun
  | _ =>
    rw [ht] at hrun
    exact absurd hrun fail_ne_ok

theorem sound_block : Sound block DerivesBlock := by
  intro s body s' hrun
  obtain ⟨⟨⟩, s1, hopen, hrun⟩ := Outcome.stateT_bind_eq_ok hrun
  obtain ⟨body, s2, hbody, hrun⟩ := Outcome.stateT_bind_eq_ok hrun
  obtain ⟨⟨⟩, s3, hclose, hrun⟩ := Outcome.stateT_bind_eq_ok hrun
  cases hrun
  obtain ⟨left, hs, hleft⟩ := expect_eq_ok (by decide) hopen
  obtain ⟨ts, hs1, hts⟩ := sound_manyWhile
    (fun s _ i s' _ _ hrun => sound_instruction s i s' hrun) s1 body s2 hbody
  obtain ⟨right, hs2, hright⟩ := expect_eq_ok (by decide) hclose
  exact ⟨left :: (ts ++ [right]), by simp [hs, hs1, hs2], left, ts, right, rfl, hleft, hts, hright⟩

/-! ### Items -/

theorem sound_expectName (what : String) : Sound (expectName what) IsNameToken := by
  intro s x s' hrun
  obtain ⟨t, hs, ht, rfl⟩ := expectName_eq_ok hrun
  exact ⟨[t], hs, t, rfl, ht, rfl⟩

theorem sound_loopItem : Sound loopItem DerivesLoop := by
  intro s l s' hrun
  obtain ⟨⟨⟩, s1, hexpect, hrun⟩ := Outcome.stateT_bind_eq_ok hrun
  obtain ⟨word, hs, hword⟩ := expect_eq_ok (by decide) hexpect
  obtain ⟨name, s2, hname, hrun⟩ := Outcome.stateT_bind_eq_ok hrun
  obtain ⟨i, hs1, hi, rfl⟩ := expectName_eq_ok hname
  obtain ⟨b, s3, haccept, hrun⟩ := Outcome.stateT_bind_eq_ok hrun
  cases b with
  | true =>
    obtain ⟨equal, hs2, hequal⟩ := accept_eq_true (by decide) haccept
    obtain ⟨lower, s4, hlower, hrun⟩ := Outcome.stateT_bind_eq_ok hrun
    obtain ⟨⟨⟩, s5, hexpect, hrun⟩ := Outcome.stateT_bind_eq_ok hrun
    obtain ⟨upper, s6, hupper, hrun⟩ := Outcome.stateT_bind_eq_ok hrun
    obtain ⟨bounds, s7, hbounds, hrun⟩ := Outcome.stateT_bind_eq_ok hrun
    cases hbounds
    obtain ⟨body, s7, hbody, hrun⟩ := Outcome.stateT_bind_eq_ok hrun
    cases hrun
    obtain ⟨us, hs3, hus⟩ := sound_expression s3 lower s4 hlower
    obtain ⟨upto, hs4, hupto⟩ := expect_eq_ok (by decide) hexpect
    obtain ⟨vs, hs5, hvs⟩ := sound_expression s5 upper s6 hupper
    obtain ⟨ts, hs6, hts⟩ := sound_block s6 body _ hbody
    exact ⟨word :: i :: equal :: (us ++ upto :: (vs ++ ts)),
      by simp [hs, hs1, hs2, hs3, hs4, hs5, hs6], .bounded hword hi hequal hus hupto hvs hts⟩
  | false =>
    obtain rfl := accept_eq_false haccept
    obtain ⟨bounds, s4, hbounds, hrun⟩ := Outcome.stateT_bind_eq_ok hrun
    cases hbounds
    obtain ⟨body, s4, hbody, hrun⟩ := Outcome.stateT_bind_eq_ok hrun
    cases hrun
    obtain ⟨ts, hs2, hts⟩ := sound_block s2 body _ hbody
    exact ⟨word :: i :: ts, by simp [hs, hs1, hs2], .unbounded hword hi hts⟩

theorem sound_procedureItem : Sound procedureItem DerivesProcedure := by
  intro s f s' hrun
  obtain ⟨⟨⟩, s1, hexpect, hrun⟩ := Outcome.stateT_bind_eq_ok hrun
  obtain ⟨word, hs, hword⟩ := expect_eq_ok (by decide) hexpect
  obtain ⟨name, s2, hname, hrun⟩ := Outcome.stateT_bind_eq_ok hrun
  obtain ⟨f', hs1, hf, rfl⟩ := expectName_eq_ok hname
  obtain ⟨⟨⟩, s3, hopen, hrun⟩ := Outcome.stateT_bind_eq_ok hrun
  obtain ⟨left, hs2, hleft⟩ := expect_eq_ok (by decide) hopen
  obtain ⟨b, s4, hat, hrun⟩ := Outcome.stateT_bind_eq_ok hrun
  obtain ⟨u, -, rfl, rfl⟩ := at?_eq_ok hat
  -- What stands between the parentheses is read first, the rest is the same in both cases.
  have hrun : ∃ us parameters s5, s3 = us.map .ok ++ s5 ∧
      (us = [] ∧ parameters = [] ∨ Separated IsNameToken us parameters) ∧
      (do
        expect .rightParen " after parameters"
        let body ← block
        pure ⟨f'.text, parameters, body⟩ : Parse Procedure) s5 = .ok (f, s') := by
    split at hrun
    case isTrue => exact ⟨[], [], s3, rfl, Or.inl ⟨rfl, rfl⟩, hrun⟩
    case isFalse =>
      obtain ⟨parameters, s5, hparameters, hrun⟩ := Outcome.stateT_bind_eq_ok hrun
      obtain ⟨us, hs3, hus⟩ :=
        sound_commaSeparated (sound_expectName _) s3 parameters s5 hparameters
      exact ⟨us, parameters, s5, hs3, Or.inr hus, hrun⟩
  obtain ⟨us, parameters, s5, hs3, hus, hrun⟩ := hrun
  obtain ⟨⟨⟩, s6, hclose, hrun⟩ := Outcome.stateT_bind_eq_ok hrun
  obtain ⟨right, hs5, hright⟩ := expect_eq_ok (by decide) hclose
  obtain ⟨body, s7, hbody, hrun⟩ := Outcome.stateT_bind_eq_ok hrun
  cases hrun
  obtain ⟨ts, hs6, hts⟩ := sound_block s6 body _ hbody
  exact ⟨word :: f' :: left :: (us ++ right :: ts), by simp [hs, hs1, hs2, hs3, hs5, hs6],
    .intro hword hf hleft hus hright hts⟩

theorem find?_isWord (words : List (String × α)) (ht : t.kind = .identifier) :
    words.find? (fun w => t.isWord w.1) = (words.lookup t.text).map fun x => (t.text, x) := by
  induction words with
  | nil => rfl
  | cons w words ih =>
    obtain ⟨k, x⟩ := w
    by_cases hk : t.text = k
    · have hyes : t.isWord k = true := by simp [Token.isWord, ht, hk]
      simp [hyes, hk]
    · have hno : t.isWord k = false := by simp [Token.isWord, hk]
      simp [List.lookup_cons, hno, beq_false_of_ne hk, ih]

theorem word_eq_ok {words : List (String × α)} {cause : ParseCause} {x : α}
    (h : word words cause s = .ok (x, s')) : ∃ t, s = .ok t :: s' ∧ IsWord words t x := by
  obtain ⟨t, s1, hpeek, hrun⟩ := Outcome.stateT_bind_eq_ok h
  cases hfind : words.find? fun w => t.isWord w.1 with
  | none =>
    rw [hfind] at hrun
    exact absurd hrun fail_ne_ok
  | some w =>
    rw [hfind] at hrun
    have hword := List.find?_some (p := fun w : String × α => t.isWord w.1) hfind
    have hword : t.kind = .identifier ∧ t.text = w.1 := by simpa [Token.isWord] using hword
    obtain ⟨rfl, rest, rfl⟩ := eq_cons_of_peek hpeek (by rw [hword.1]; decide)
    cases hrun
    rw [find?_isWord words hword.1, Option.map_eq_some_iff] at hfind
    obtain ⟨x, hx, rfl⟩ := hfind
    exact ⟨t, rfl, hword.1, hx⟩

theorem sound_rebinding : Sound rebinding DerivesRebinding := by
  intro s r s' hrun
  obtain ⟨kind, s1, hkind, hrun⟩ := Outcome.stateT_bind_eq_ok hrun
  obtain ⟨⟨⟩, s2, hopen, hrun⟩ := Outcome.stateT_bind_eq_ok hrun
  obtain ⟨value, s3, hvalue, hrun⟩ := Outcome.stateT_bind_eq_ok hrun
  obtain ⟨⟨⟩, s4, hclose, hrun⟩ := Outcome.stateT_bind_eq_ok hrun
  cases hrun
  obtain ⟨k, hs, hk⟩ := word_eq_ok hkind
  obtain ⟨left, hs1, hleft⟩ := expect_eq_ok (by decide) hopen
  obtain ⟨v, hs2, hv⟩ := word_eq_ok hvalue
  obtain ⟨right, hs3, hright⟩ := expect_eq_ok (by decide) hclose
  exact ⟨[k, left, v, right], by simp [hs, hs1, hs2, hs3], k, left, v, right, rfl, hk, hleft, hv,
    hright⟩

theorem sound_symbolItem : Sound symbolItem DerivesSymbol := by
  intro s x s' hrun
  obtain ⟨⟨⟩, s1, hexpect, hrun⟩ := Outcome.stateT_bind_eq_ok hrun
  obtain ⟨name, s2, hname, hrun⟩ := Outcome.stateT_bind_eq_ok hrun
  obtain ⟨⟨⟩, s3, hpunctuation, hrun⟩ := Outcome.stateT_bind_eq_ok hrun
  obtain ⟨visibility, s4, hvisibility, hrun⟩ := Outcome.stateT_bind_eq_ok hrun
  obtain ⟨element, s5, helement, hrun⟩ := Outcome.stateT_bind_eq_ok hrun
  obtain ⟨dimensions, s6, hdimensions, hrun⟩ := Outcome.stateT_bind_eq_ok hrun
  obtain ⟨rebindings, s7, hrebindings, hrun⟩ := Outcome.stateT_bind_eq_ok hrun
  obtain ⟨⟨⟩, s8, hend, hrun⟩ := Outcome.stateT_bind_eq_ok hrun
  cases hrun
  obtain ⟨word, hs, hword⟩ := expect_eq_ok (by decide) hexpect
  obtain ⟨x, hs1, hx, rfl⟩ := expectName_eq_ok hname
  obtain ⟨colon, hs2, hcolon⟩ := expect_eq_ok (by decide) hpunctuation
  obtain ⟨v, hs3, hv⟩ := word_eq_ok hvisibility
  obtain ⟨e, hs4, he, rfl⟩ := expectName_eq_ok helement
  have hdimension : Sound (manyWhile (·.kind == .leftBracket) do
      advance
      expect .rightBracket " in array type") (Repeated DerivesDimension) := by
    refine sound_manyWhile fun s t _ s' hpeek hmore hrun => ?_
    rw [beq_iff_eq] at hmore
    obtain ⟨-, rest, rfl⟩ := eq_cons_of_peek hpeek (by rw [hmore]; decide)
    have hrun := advance_bind_eq_ok hrun
    obtain ⟨right, hs, hright⟩ := expect_eq_ok (by decide) hrun
    exact ⟨[t, right], by simp [hs], t, right, rfl, hmore, hright⟩
  obtain ⟨ts, hs5, hts⟩ := hdimension s5 dimensions s6 hdimensions
  obtain ⟨us, hs6, hus⟩ := sound_manyWhile
    (fun s _ r s' _ _ hrun => sound_rebinding s r s' hrun) s6 rebindings s7 hrebindings
  obtain ⟨semicolon, hs7, hsemicolon⟩ := expect_eq_ok (by decide) hend
  exact ⟨word :: x :: colon :: v :: e :: (ts ++ (us ++ [semicolon])),
    by simp [hs, hs1, hs2, hs3, hs4, hs5, hs6, hs7],
    .intro hword hx hcolon hv he hts hus hsemicolon⟩

theorem sound_item (items : Items) : Sound (item items) fun ts items' =>
    ∃ x, DerivesItem ts x ∧ items.add x = some items' := by
  intro s items' s' hrun
  obtain ⟨t, s1, hpeek, hrun⟩ := Outcome.stateT_bind_eq_ok hrun
  obtain ⟨rfl, -⟩ := peek_eq_ok hpeek
  cases ht : t.kind with
  | symbolWord =>
    rw [ht] at hrun
    obtain ⟨x, s2, hx, hrun⟩ := Outcome.stateT_bind_eq_ok hrun
    split at hrun
    case isTrue => exact absurd hrun failAt_ne_ok
    case isFalse hnew =>
      cases hrun
      obtain ⟨ts, hs, hts⟩ := sound_symbolItem s x _ hx
      exact ⟨ts, hs, _, .symbol hts, if_neg hnew⟩
  | procWord =>
    rw [ht] at hrun
    obtain ⟨f, s2, hf, hrun⟩ := Outcome.stateT_bind_eq_ok hrun
    split at hrun
    case isTrue => exact absurd hrun failAt_ne_ok
    case isFalse hnew =>
      cases hrun
      obtain ⟨ts, hs, hts⟩ := sound_procedureItem s f _ hf
      exact ⟨ts, hs, _, .procedure hts, if_neg hnew⟩
  | loopWord =>
    rw [ht] at hrun
    obtain ⟨l, s2, hl, hrun⟩ := Outcome.stateT_bind_eq_ok hrun
    split at hrun
    case isTrue => exact absurd hrun failAt_ne_ok
    case isFalse hnew =>
      cases hrun
      obtain ⟨ts, hs, hts⟩ := sound_loopItem s l _ hl
      exact ⟨ts, hs, _, .loop hts, if_neg hnew⟩
  | _ =>
    rw [ht] at hrun
    exact absurd hrun fail_ne_ok

/-- Items are read up to the end of the text, if enough of them may be read. -/
theorem sound_itemsWithin {n : Nat} {items items' : Items} (hn : s.length ≤ n)
    (h : itemsWithin n items s = .ok (items', s')) :
    (∃ ts xs, s = ts.map .ok ++ s' ∧ Repeated DerivesItem ts xs ∧
      xs.foldlM Items.add items = some items') ∧
    ∃ t, peek s' = .ok (t, s') ∧ t.kind = .endOfText := by
  induction n generalizing items s with
  | zero =>
    cases h
    rw [List.length_eq_zero_iff.1 (Nat.le_zero.1 hn)]
    exact ⟨⟨[], [], rfl, .nil, rfl⟩, _, rfl, rfl⟩
  | succ n ih =>
    rw [itemsWithin] at h
    obtain ⟨b, s1, hat, h⟩ := Outcome.stateT_bind_eq_ok h
    obtain ⟨t, hpeek, rfl, rfl⟩ := at?_eq_ok hat
    split at h
    case isTrue hend =>
      cases h
      exact ⟨⟨[], [], rfl, .nil, rfl⟩, t, hpeek, beq_iff_eq.1 hend⟩
    case isFalse =>
      obtain ⟨items1, s1, hitem, h⟩ := Outcome.stateT_bind_eq_ok h
      obtain ⟨ts, hs, x, hx, hadd⟩ := sound_item items s items1 s1 hitem
      -- An item takes a token at least, so that the bound suffices for what is left.
      obtain ⟨t', ts', rfl, -⟩ := hx.start
      have hlength := congrArg List.length hs
      simp only [List.length_append, List.length_map, List.length_cons] at hlength
      obtain ⟨⟨us, xs, hs1, hxs, hfold⟩, hend⟩ := ih (by omega) h
      refine ⟨⟨_, x :: xs, ?_, .cons hx hxs, ?_⟩, hend⟩
      · rw [List.map_append, List.append_assoc, ← hs1, hs]
      · rw [List.foldlM_cons, hadd]
        exact hfold

/-- **What is read from a listing follows the grammar**, and the text is at its end behind it. -/
theorem derivesProgram_of_parse {text : String} {p : Program} (h : parse text = .ok p) :
    ∃ ts rest, scan text = ts.map .ok ++ rest ∧ DerivesProgram ts p ∧
      ∃ t, peek rest = .ok (t, rest) ∧ t.kind = .endOfText := by
  have h : (program (scan text)).map (·.1) = .ok p := h
  cases hrun : program (scan text) with
  | error e =>
    rw [hrun] at h
    cases h
  | ok r =>
    rw [hrun] at h
    cases h
    obtain ⟨_, s0, hget, hrun⟩ := Outcome.stateT_bind_eq_ok hrun
    cases hget
    obtain ⟨items, rest, hitems, hrun⟩ := Outcome.stateT_bind_eq_ok hrun
    obtain ⟨⟨ts, xs, hs, hxs, hadd⟩, hend⟩ := sound_itemsWithin (Nat.le_refl _) hitems
    cases hloop : items.loop with
    | none =>
      rw [hloop] at hrun
      exact absurd hrun fail_ne_ok
    | some l =>
      rw [hloop] at hrun
      cases hrun
      exact ⟨ts, rest, hs, ⟨xs, hxs, makeProgram_iff.2 ⟨items, l, hadd, hloop, rfl⟩⟩, hend⟩

end ParLoop.Listing
