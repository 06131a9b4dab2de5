import ParLoop.Proofs.Listing.Sound

/-!
# What follows the grammar is read by the parser

The tokens of a phrase are read as what they stand for, provided that the token behind them cannot
go on with the phrase (`Next`, `Complete`). Together with soundness this says what is accepted:
the tokens of `DerivesProgram`, with the end of the text behind them (`parse_of_derivesProgram`).
-/

namespace ParLoop.Listing

variable {α β : Type} {s s' : Stream} {t : Token} {ts : List Token} {kind : TokenKind}
  {ends : TokenKind → Bool}

/-! ### Single tokens -/

theorem bind_of_eq_ok {m : Parse α} {f : α → Parse β} {x : α} (h : m s = .ok (x, s')) :
    (m >>= f) s = f x s' := by
  show (m s >>= fun r => f r.1 r.2) = f x s'
  rw [h]
  rfl

/-- The current token is of a kind that passes a test. -/
def Next (passes : TokenKind → Bool) (s : Stream) : Prop :=
  ∃ t, peek s = .ok (t, s) ∧ passes t.kind = true

theorem peek_cons : peek (.ok t :: s) = .ok (t, .ok t :: s) := rfl

theorem next_cons (h : ends t.kind = true) : Next ends (.ok t :: s) := ⟨t, peek_cons, h⟩

/-- Any kind of token. -/
def anyKind (_ : TokenKind) : Bool := true

theorem Next.imp {ends' : TokenKind → Bool} (himp : ∀ k, ends k = true → ends' k = true)
    (h : Next ends s) : Next ends' s := by
  obtain ⟨t, hpeek, ht⟩ := h
  exact ⟨t, hpeek, himp _ ht⟩

theorem advance_cons : advance (.ok t :: s) = .ok ((), s) := rfl

theorem at?_eq (h : peek s = .ok (t, s)) : at? kind s = .ok (t.kind == kind, s) :=
  bind_of_eq_ok h

theorem at?_of_next (hne : ∀ k, ends k = true → k ≠ kind) (h : Next ends s) :
    at? kind s = .ok (false, s) := by
  obtain ⟨t, hpeek, ht⟩ := h
  rw [at?_eq hpeek, beq_false_of_ne (hne _ ht)]

theorem accept_cons (h : t.kind = kind) : accept kind (.ok t :: s) = .ok (true, s) := by
  rw [accept, bind_of_eq_ok (at?_eq peek_cons), h, beq_self_eq_true]
  rfl

theorem accept_of_next (hne : ∀ k, ends k = true → k ≠ kind) (h : Next ends s) :
    accept kind s = .ok (false, s) := by
  rw [accept, bind_of_eq_ok (at?_of_next hne h)]
  rfl

theorem accept_of_kind_ne {kind' : TokenKind} (hkind : t.kind = kind') (hne : kind' ≠ kind) :
    accept kind (.ok t :: s) = .ok (false, .ok t :: s) := by
  have hnext : Next (· == kind') (.ok t :: s) := next_cons (beq_iff_eq.2 hkind)
  exact accept_of_next (fun k hk => by rwa [beq_iff_eq.1 hk]) hnext

theorem expect_cons {place : String} (h : t.kind = kind) :
    expect kind place (.ok t :: s) = .ok ((), s) := by
  rw [expect, bind_of_eq_ok (at?_eq peek_cons), h, beq_self_eq_true]
  rfl

theorem expectName_cons {what : String} (h : t.kind = .identifier) :
    expectName what (.ok t :: s) = .ok (t.text, s) := by
  rw [expectName, bind_of_eq_ok peek_cons, if_pos h]
  rfl

theorem word_cons {words : List (String × α)} {cause : ParseCause} {x : α}
    (h : IsWord words t x) : word words cause (.ok t :: s) = .ok (x, s) := by
  rw [word, bind_of_eq_ok peek_cons, find?_isWord words h.1, h.2]
  rfl

/-! ### Repetition -/

/-- Tokens of a form are read as what they stand for, if a token follows that ends the form. -/
def Complete (m : Parse α) (form : List Token → α → Prop) (ends : TokenKind → Bool) : Prop :=
  ∀ ts x, form ts x → ∀ s, Next ends s → m (ts.map .ok ++ s) = .ok (x, s)

section

variable {more : Token → Bool} {item : Parse α} {form : List Token → α → Prop}
  {last : TokenKind → Bool} {xs : List α}

/-- The phrases of a repetition are not longer than the repetition. -/
theorem Repeated.bounded {n : Nat} (h : Repeated form ts xs) (hn : ts.length ≤ n) :
    Repeated (fun us x => form us x ∧ us.length ≤ n) ts xs := by
  induction h with
  | nil => exact .nil
  | cons head _ ih =>
    rw [List.length_append] at hn
    exact .cons ⟨head, by omega⟩ (ih (by omega))

theorem Repeated.length_le (hstart : ∀ ts x, form ts x → ts ≠ []) (h : Repeated form ts xs) :
    xs.length ≤ ts.length := by
  induction h with
  | nil => exact Nat.le_refl 0
  | @cons ts us x xs head _ ih =>
    have hts := List.length_pos_iff.2 (hstart ts x head)
    rw [List.length_append, List.length_cons]
    omega

/-- The token behind a phrase of a repetition is the first one of the next phrase, or the one behind
the repetition. -/
theorem Repeated.next
    (hstart : ∀ ts x, form ts x → ∃ t us, ts = t :: us ∧ ends t.kind = true)
    (h : Repeated form ts xs) (hs : Next ends s) : Next ends (ts.map .ok ++ s) := by
  cases h with
  | nil => exact hs
  | cons head _ =>
    obtain ⟨t, us, rfl, ht⟩ := hstart _ _ head
    exact next_cons ht

theorem complete_many (hitem : Complete item form ends)
    (hstart : ∀ ts x, form ts x → ∃ t us, ts = t :: us ∧ more t = true ∧ ends t.kind = true)
    (hlast : ∀ t : Token, last t.kind = true → more t = false ∧ ends t.kind = true)
    (h : Repeated form ts xs) {n : Nat} (hn : xs.length ≤ n) (hs : Next last s) :
    many more item n (ts.map .ok ++ s) = .ok (xs, s) := by
  induction h generalizing n with
  | nil =>
    obtain ⟨t, hpeek, ht⟩ := hs
    cases n with
    | zero => rfl
    | succ n =>
      rw [many, List.map_nil, List.nil_append, bind_of_eq_ok hpeek, (hlast t ht).1]
      rfl
  | @cons ts us x xs head tail ih =>
    obtain ⟨t, ts', rfl, hmore, -⟩ := hstart ts x head
    cases n with
    | zero => cases hn
    | succ n =>
      have hnext : Next ends (us.map .ok ++ s) := by
        refine tail.next (fun ts x h => ?_) ?_
        · obtain ⟨t, us, hts, -, ht⟩ := hstart ts x h
          exact ⟨t, us, hts, ht⟩
        · obtain ⟨t, hpeek, ht⟩ := hs
          exact ⟨t, hpeek, (hlast t ht).2⟩
      have hx := hitem _ x head _ hnext
      rw [List.map_append, List.append_assoc, many]
      rw [List.map_cons, List.cons_append] at hx ⊢
      rw [bind_of_eq_ok peek_cons, if_pos hmore, bind_of_eq_ok hx,
        bind_of_eq_ok (ih (Nat.le_of_succ_le_succ hn))]
      rfl

theorem complete_manyWhile (hitem : Complete item form ends)
    (hstart : ∀ ts x, form ts x → ∃ t us, ts = t :: us ∧ more t = true ∧ ends t.kind = true)
    (hlast : ∀ t : Token, last t.kind = true → more t = false ∧ ends t.kind = true) :
    Complete (manyWhile more item) (Repeated form) last := by
  intro ts xs h s hs
  have hlength := h.length_le fun ts x hform => by
    obtain ⟨t, us, rfl, -⟩ := hstart ts x hform
    exact List.cons_ne_nil t us
  refine complete_many hitem hstart hlast h ?_ hs
  rw [List.length_append, List.length_map]
  omega

/-- Phrases with commas between them, where a comma ends a phrase. -/
theorem complete_commaSeparated (hitem : Complete item form ends) (hcomma : ends .comma = true)
    (hlast : ∀ k, last k = true → k ≠ .comma ∧ ends k = true) :
    Complete (commaSeparated item) (Separated form) last := by
  rintro ts xs ⟨us, vs, x, ys, rfl, rfl, hx, hys⟩ s hs
  have hafter : Complete (do advance; item) (AfterComma form) ends := by
    rintro ts x ⟨comma, us, rfl, -, hx⟩ s hs
    exact hitem us x hx s hs
  have hstart : ∀ ts x, AfterComma form ts x →
      ∃ t us, ts = t :: us ∧ (t.kind == .comma) = true ∧ ends t.kind = true := by
    rintro ts x ⟨comma, us, rfl, hkind, -⟩
    exact ⟨comma, us, rfl, beq_iff_eq.2 hkind, hkind ▸ hcomma⟩
  have hrest := complete_manyWhile hafter hstart
    (fun t ht => ⟨beq_false_of_ne (hlast _ ht).1, (hlast _ ht).2⟩) vs ys hys s hs
  have hnext : Next ends (vs.map .ok ++ s) := by
    refine hys.next (fun ts x h => ?_) (hs.imp fun k hk => (hlast k hk).2)
    obtain ⟨t, us, hts, -, ht⟩ := hstart ts x h
    exact ⟨t, us, hts, ht⟩
  rw [commaSeparated, List.map_append, List.append_assoc, bind_of_eq_ok (hitem us x hx _ hnext),
    bind_of_eq_ok hrest]
  rfl

end

/-! ### Expressions -/

/-- The kinds of tokens behind which an operand is at its end. -/
def operandEnds (k : TokenKind) : Bool := k != .leftParen && k != .leftBracket

/-- The kinds of tokens behind which operands joined by the operators of some levels are at their
end. -/
def joinedEnds (levels : List (List (TokenKind × BinaryOp))) (k : TokenKind) : Bool :=
  operandEnds k && levels.all fun level => (level.lookup k).isNone

/-- The kinds of tokens behind which an expression is at its end. -/
def expressionEnds (k : TokenKind) : Bool := joinedEnds operatorLevels k && k != .question

/-- The kinds of tokens that begin an expression. -/
def startKinds : List TokenKind := [.minus, .integer, .float, .identifier, .leftParen]

theorem Derives.start {phrase : Phrase} {es : List Expr} (h : Derives phrase ts es)
    (hphrase : phrase.isExpression = true) : ∃ t us, ts = t :: us ∧ t.kind ∈ startKinds := by
  induction h with
  | plain _ ih | unjoined _ ih | tighter _ ih | unsigned _ ih => exact ih rfl
  | conditional _ _ _ _ _ ih _ _ | operator _ _ _ ih _ =>
    obtain ⟨t, us, rfl, ht⟩ := ih rfl
    exact ⟨t, _, rfl, ht⟩
  | minus hkind _ _ | int hkind _ | double hkind | name hkind | call hkind _ _ _ _
  | access hkind _ _ _ | paren hkind _ _ _ => exact ⟨_, _, rfl, by rw [hkind]; decide⟩
  | noArguments | argument _ _ _ _ | noMore | more _ _ _ _ _ | noIndex | index _ _ _ _ _ _ =>
    cases hphrase

theorem Derives.leftBracket {is : List Expr} (h : Derives .indices ts is) (hsome : is ≠ []) :
    ∃ t us, ts = t :: us ∧ t.kind = .leftBracket := by
  cases h with
  | noIndex => exact absurd rfl hsome
  | index hleft _ _ _ => exact ⟨_, _, rfl, hleft⟩

section

variable {expression : Parse Expr} {n : Nat}
  (hexpression : Complete expression (fun ts e => DerivesExpr ts e ∧ ts.length ≤ n) expressionEnds)

include hexpression

theorem complete_arguments : Complete (arguments expression)
    (fun ts es => Derives .arguments ts es ∧ ts.length ≤ n) (· == .rightParen) := by
  rintro ts es ⟨h, hn⟩ s hs
  cases h with
  | noArguments =>
    obtain ⟨t, hpeek, ht⟩ := hs
    rw [arguments, List.map_nil, List.nil_append, bind_of_eq_ok (at?_eq hpeek),
      if_pos ht]
    rfl
  | @argument ts us e es first rest =>
    obtain ⟨t, ts', rfl, ht⟩ := first.start rfl
    rw [List.length_append] at hn
    -- The bound holds of the whole list, so it holds of each argument.
    have hrest := (Derives.moreArguments_iff.1 rest).bounded (Nat.le_of_add_left_le hn)
    have hlist : Separated (fun ts e => DerivesExpr ts e ∧ ts.length ≤ n) ((t :: ts') ++ us)
        (e :: es) := by
      refine ⟨t :: ts', us, e, es, rfl, rfl, ⟨first, by omega⟩, hrest.imp ?_⟩
      rintro us e ⟨⟨comma, vs, rfl, hcomma, he⟩, hlength⟩
      exact ⟨comma, vs, rfl, hcomma, he, Nat.le_of_succ_le hlength⟩
    have hread := complete_commaSeparated hexpression (by decide)
      (fun k hk => by rw [beq_iff_eq.1 hk]; decide) _ _ hlist s hs
    -- No expression begins with the sign that would end an empty list.
    have hparen : (t.kind == .rightParen) = false := by
      refine beq_false_of_ne fun hkind => ?_
      rw [hkind] at ht
      exact absurd ht (by decide)
    rw [arguments]
    rw [List.cons_append, List.map_cons, List.cons_append] at hread ⊢
    rw [bind_of_eq_ok (at?_eq peek_cons), hparen]
    exact hread

theorem complete_indices : Complete (indices expression)
    (fun ts is => Derives .indices ts is ∧ ts.length ≤ n) (· != .leftBracket) := by
  rintro ts is ⟨h, hn⟩ s hs
  have hindex : Complete (do
      advance
      let index ← expression
      expect .rightBracket ""
      pure index) (fun us e => DerivesIndex us e ∧ us.length ≤ n) anyKind := by
    rintro us e ⟨⟨left, vs, right, rfl, -, he, hright⟩, hlength⟩ s -
    rw [List.length_cons, List.length_append] at hlength
    have hread := hexpression vs e ⟨he, by omega⟩ (.ok right :: s)
      (next_cons (by rw [hright]; decide))
    rw [List.map_cons, List.map_append, List.cons_append, List.append_assoc,
      bind_of_eq_ok advance_cons, List.map_singleton, List.singleton_append, bind_of_eq_ok hread,
      bind_of_eq_ok (expect_cons hright)]
    rfl
  refine complete_manyWhile hindex ?_ (fun t ht => ⟨?_, rfl⟩) ts is
    ((Derives.indices_iff.1 h).bounded hn) s hs
  · rintro us e ⟨⟨left, vs, right, rfl, hleft, -⟩, -⟩
    exact ⟨left, _, rfl, beq_iff_eq.2 hleft, rfl⟩
  · exact beq_false_of_ne (bne_iff_ne.1 ht)

theorem complete_primary : Complete (primary expression)
    (fun ts e => Derives .primary ts [e] ∧ ts.length ≤ n + 1) operandEnds := by
  rintro ts e ⟨h, hn⟩ s hs
  have hparen : ∀ k, operandEnds k = true → k ≠ .leftParen := by
    rintro k hk rfl
    cases hk
  have hbracket : ∀ k, operandEnds k = true → k ≠ .leftBracket := by
    rintro k hk rfl
    cases hk
  cases h with
  | @int t ht hrange =>
    rw [primary, List.map_singleton, List.singleton_append, bind_of_eq_ok peek_cons]
    simp only [ht]
    rw [if_pos hrange]
    rfl
  | @double t ht =>
    rw [primary, List.map_singleton, List.singleton_append, bind_of_eq_ok peek_cons]
    simp only [ht]
    rfl
  | @name t ht =>
    rw [primary, List.map_singleton, List.singleton_append, bind_of_eq_ok peek_cons]
    simp only [ht]
    rw [bind_of_eq_ok advance_cons, bind_of_eq_ok (accept_of_next hparen hs)]
    simp only [Bool.false_eq_true, if_false]
    rw [bind_of_eq_ok (at?_of_next hbracket hs)]
    rfl
  | @call t left right ts es ht hleft h hright =>
    rw [List.length_cons, List.length_cons, List.length_append] at hn
    have hread := complete_arguments hexpression ts es ⟨h, by omega⟩ (.ok right :: s)
      (next_cons (beq_iff_eq.2 hright))
    rw [primary]
    simp only [List.map_cons, List.map_append, List.map_nil, List.cons_append, List.append_assoc,
      List.nil_append]
    rw [bind_of_eq_ok peek_cons]
    simp only [ht]
    rw [bind_of_eq_ok advance_cons, bind_of_eq_ok (accept_cons hleft), if_pos rfl,
      bind_of_eq_ok hread, bind_of_eq_ok (expect_cons hright)]
    rfl
  | @access t ts is ht h hsome =>
    obtain ⟨left, ts', rfl, hleft⟩ := h.leftBracket hsome
    rw [List.length_cons] at hn
    have hread := complete_indices hexpression (left :: ts') is ⟨h, by omega⟩ s
      (hs.imp fun k hk => bne_iff_ne.2 (hbracket k hk))
    rw [primary]
    rw [List.map_cons, List.cons_append] at hread
    rw [List.map_cons, List.map_cons, List.cons_append, List.cons_append, bind_of_eq_ok peek_cons]
    simp only [ht]
    rw [bind_of_eq_ok advance_cons, bind_of_eq_ok (accept_of_kind_ne hleft (by decide))]
    simp only [Bool.false_eq_true, if_false]
    rw [bind_of_eq_ok (at?_eq peek_cons), hleft, if_pos (beq_self_eq_true _),
      bind_of_eq_ok hread]
    rfl
  | @paren left right ts e hleft h hright =>
    rw [List.length_cons, List.length_append] at hn
    have hread := hexpression ts e ⟨h, by omega⟩ (.ok right :: s)
      (next_cons (by rw [hright]; decide))
    rw [primary]
    simp only [List.map_cons, List.map_append, List.map_nil, List.cons_append, List.append_assoc,
      List.nil_append]
    rw [bind_of_eq_ok peek_cons]
    simp only [hleft]
    rw [bind_of_eq_ok advance_cons, bind_of_eq_ok hread, bind_of_eq_ok (expect_cons hright)]
    rfl

theorem complete_unary : Complete (unary expression)
    (fun ts e => Derives .operand ts [e] ∧ ts.length ≤ n + 1) operandEnds := by
  rintro ts e ⟨h, hn⟩ s hs
  obtain ⟨us, vs, signs, e, rfl, hsigns, he, rfl⟩ := h.exists_signs
  have hminus : Complete advance DerivesMinus anyKind := by
    rintro ts ⟨⟩ ⟨t, rfl, -⟩ s -
    rfl
  -- A primary does not begin with a minus sign, so the loop over signs stops at it.
  have hnext : Next (· != .minus) (vs.map .ok ++ s) := by
    cases he with
    | int hkind _ | double hkind | name hkind | call hkind _ _ _ | access hkind _ _
    | paren hkind _ _ => exact next_cons (by rw [hkind]; decide)
  have hread : Complete (manyWhile (·.kind == .minus) advance) (Repeated DerivesMinus)
      (· != .minus) := by
    refine complete_manyWhile hminus ?_ fun t ht => ⟨beq_false_of_ne (bne_iff_ne.1 ht), rfl⟩
    rintro ts ⟨⟩ ⟨t, rfl, ht⟩
    exact ⟨t, [], rfl, beq_iff_eq.2 ht, rfl⟩
  rw [List.length_append] at hn
  have hprimary := complete_primary hexpression vs e ⟨he, by omega⟩ s hs
  rw [unary, List.map_append, List.append_assoc, bind_of_eq_ok (hread us signs hsigns _ hnext),
    bind_of_eq_ok hprimary]
  rfl

end

/-- Levels that share no operator, so that an operator of one level ends the operands of the tighter
levels. -/
def LevelsApart (levels : List (List (TokenKind × BinaryOp))) : Prop :=
  levels.Pairwise fun level tighter => ∀ e ∈ level, tighter.lookup e.1 = none

theorem joinedEnds_of_lookup {level : List (TokenKind × BinaryOp)}
    {levels : List (List (TokenKind × BinaryOp))} {op : BinaryOp}
    (hapart : LevelsApart (level :: levels)) (hends : ∀ e ∈ level, operandEnds e.1 = true)
    (h : level.lookup kind = some op) : joinedEnds levels kind = true := by
  have hmem := mem_of_lookup_eq_some h
  rw [joinedEnds, hends _ hmem, Bool.true_and, List.all_eq_true]
  intro tighter htighter
  rw [(List.pairwise_cons.1 hapart).1 tighter htighter _ hmem]
  rfl

theorem complete_binary {operand : Parse Expr} {n : Nat}
    (hoperand : Complete operand (fun ts e => Derives .operand ts [e] ∧ ts.length ≤ n) operandEnds)
    {levels : List (List (TokenKind × BinaryOp))} (hapart : LevelsApart levels)
    (hends : ∀ level ∈ levels, ∀ e ∈ level, operandEnds e.1 = true) :
    Complete (binary operand levels)
      (fun ts e => Derives (.joined levels) ts [e] ∧ ts.length ≤ n) (joinedEnds levels) := by
  induction levels with
  | nil =>
    rintro ts e ⟨h, hn⟩ s hs
    cases h with
    | unjoined h => exact hoperand ts e ⟨h, hn⟩ s (hs.imp fun k hk => (Bool.and_eq_true _ _ ▸ hk).1)
  | cons level levels ih =>
    rintro ts e ⟨h, hn⟩ s hs
    have htighter := ih (List.pairwise_cons.1 hapart).2
      fun l hl => hends l (List.mem_cons_of_mem _ hl)
    obtain ⟨us, vs, l, rest, rfl, hl, hrest, rfl⟩ := h.exists_operations
    rw [List.length_append] at hn
    -- The loop stops before a token that is no operator of its level; the tighter levels leave one.
    have hoperation : Complete (operation level (binary operand levels))
        (fun ts r => DerivesOperation level levels ts r ∧ ts.length ≤ n) (joinedEnds levels) := by
      rintro ts ⟨op, r⟩ ⟨⟨sign, us, rfl, hop, hr⟩, hlength⟩ s hs
      have hread := htighter us r ⟨hr, Nat.le_of_succ_le hlength⟩ s hs
      rw [operation, List.map_cons, List.cons_append, bind_of_eq_ok peek_cons, hop]
      simp only
      rw [bind_of_eq_ok advance_cons, bind_of_eq_ok hread]
      rfl
    have hstart : ∀ ts r, DerivesOperation level levels ts r ∧ ts.length ≤ n →
        ∃ t us, ts = t :: us ∧ (level.lookup t.kind).isSome = true ∧
          joinedEnds levels t.kind = true := by
      rintro ts r ⟨⟨sign, us, rfl, hop, -⟩, -⟩
      exact ⟨sign, us, rfl, by rw [hop]; rfl,
        joinedEnds_of_lookup hapart (hends level List.mem_cons_self) hop⟩
    have hlast : ∀ k, joinedEnds (level :: levels) k = true →
        (level.lookup k).isSome = false ∧ joinedEnds levels k = true := by
      intro k hk
      simp only [joinedEnds, List.all_cons, Bool.and_eq_true, Option.isNone_iff_eq_none] at hk ⊢
      exact ⟨by rw [hk.2.1]; rfl, hk.1, hk.2.2⟩
    have hbounded := hrest.bounded (Nat.le_of_add_left_le hn)
    have hread := complete_manyWhile hoperation hstart (fun t ht => hlast t.kind ht) vs rest
      hbounded s hs
    have hfirst := htighter us l ⟨hl, by omega⟩ (vs.map .ok ++ s) <| by
      refine hbounded.next (fun ts r h => ?_) (hs.imp fun k hk => (hlast k hk).2)
      obtain ⟨t, us, hts, -, ht⟩ := hstart ts r h
      exact ⟨t, us, hts, ht⟩
    rw [binary, List.map_append, List.append_assoc, bind_of_eq_ok hfirst, bind_of_eq_ok hread]
    rfl

theorem complete_conditional {expression : Parse Expr} {n : Nat}
    (hexpression : Complete expression (fun ts e => DerivesExpr ts e ∧ ts.length ≤ n)
      expressionEnds) :
    Complete (conditional expression) (fun ts e => DerivesExpr ts e ∧ ts.length ≤ n + 1)
      expressionEnds := by
  have hapart : LevelsApart operatorLevels := by
    unfold LevelsApart
    decide
  have htest := complete_binary (complete_unary hexpression) hapart (by decide)
  rintro ts e ⟨h, hn⟩ s hs
  cases h with
  | plain h =>
    have hread := htest ts e ⟨h, hn⟩ s (hs.imp fun k hk => (Bool.and_eq_true _ _ ▸ hk).1)
    have hquestion : accept .question s = .ok (false, s) := by
      refine accept_of_next ?_ hs
      rintro k hk rfl
      cases hk
    rw [conditional, bind_of_eq_ok hread, bind_of_eq_ok hquestion]
    rfl
  | @conditional ts us vs question colon c t f test hquestion whenTrue hcolon whenFalse =>
    simp only [List.length_append, List.length_cons] at hn
    have hread := htest ts c ⟨test, by omega⟩
      (.ok question :: (us.map .ok ++ .ok colon :: (vs.map .ok ++ s)))
      (next_cons (by rw [hquestion]; decide))
    have htrue := hexpression us t ⟨whenTrue, by omega⟩ (.ok colon :: (vs.map .ok ++ s))
      (next_cons (by rw [hcolon]; decide))
    have hfalse := hexpression vs f ⟨whenFalse, by omega⟩ s hs
    rw [Listing.conditional]
    simp only [List.map_append, List.map_cons, List.append_assoc, List.cons_append]
    rw [bind_of_eq_ok hread, bind_of_eq_ok (accept_cons hquestion), if_pos rfl,
      bind_of_eq_ok htrue, bind_of_eq_ok (expect_cons hcolon), bind_of_eq_ok hfalse]
    rfl

theorem complete_expressionWithin (n : Nat) :
    Complete (expressionWithin n) (fun ts e => DerivesExpr ts e ∧ ts.length ≤ n)
      expressionEnds := by
  induction n with
  | zero =>
    rintro ts e ⟨h, hn⟩
    obtain ⟨t, us, rfl, -⟩ := h.start rfl
    cases hn
  | succ n ih => exact complete_conditional ih

/-- The tokens of an expression are read as it. -/
theorem complete_expression : Complete expression DerivesExpr expressionEnds := by
  intro ts e h s hs
  refine complete_expressionWithin (ts.map Except.ok ++ s).length ts e ⟨h, ?_⟩ s hs
  rw [List.length_append, List.length_map]
  omega

/-- The expressions inside of tokens are not longer than the tokens. -/
theorem complete_expression_le (n : Nat) :
    Complete expression (fun ts e => DerivesExpr ts e ∧ ts.length ≤ n) expressionEnds :=
  fun ts e h => complete_expression ts e h.1

/-! ### Instructions -/

theorem assignedTo_cons {start : Span} {target v : Expr} {equal semicolon : Token}
    (hequal : equal.kind = .equal) (hv : DerivesExpr ts v)
    (hsemicolon : semicolon.kind = .semicolon) :
    assignedTo start target (.ok equal :: (ts.map .ok ++ .ok semicolon :: s)) =
      .ok (.assign target v, s) := by
  have hread := complete_expression ts v hv (.ok semicolon :: s)
    (next_cons (by rw [hsemicolon]; decide))
  rw [assignedTo, bind_of_eq_ok peek_cons, if_pos hequal, bind_of_eq_ok advance_cons,
    bind_of_eq_ok hread, bind_of_eq_ok (expect_cons hsemicolon)]
  rfl

theorem complete_labelOrAssignment {t : Token} (ht : t.kind = .identifier) {us : List Token}
    {i : Instr} (h : DerivesInstr (t :: us) i) :
    labelOrAssignment (.ok t :: (us.map .ok ++ s)) = .ok (i, s) := by
  rw [labelOrAssignment, bind_of_eq_ok peek_cons, bind_of_eq_ok (expectName_cons ht)]
  cases h with
  | declare hword _ _ | jump hword _ _ | branch hword _ _ _ _ | call hword _ _ _ _ _ =>
    rw [ht] at hword
    cases hword
  | @label _ colon _ hcolon =>
    rw [List.map_singleton, List.singleton_append, bind_of_eq_ok (accept_cons hcolon)]
    rfl
  | @assign _ equal semicolon ts v _ hequal value hsemicolon =>
    simp only [List.map_append, List.map_cons, List.map_nil, List.append_assoc, List.cons_append,
      List.nil_append]
    rw [bind_of_eq_ok (accept_of_kind_ne hequal (by decide))]
    simp only [Bool.false_eq_true, if_false]
    rw [bind_of_eq_ok (at?_eq peek_cons), hequal]
    exact assignedTo_cons hequal value hsemicolon
  | @store _ equal semicolon us ts is v _ h hsome hequal value hsemicolon =>
    have hread := complete_indices (complete_expression_le us.length) us is ⟨h, Nat.le_refl _⟩
      (.ok equal :: (ts.map .ok ++ .ok semicolon :: s)) (next_cons (by rw [hequal]; decide))
    obtain ⟨left, us', rfl, hleft⟩ := h.leftBracket hsome
    simp only [List.map_append, List.map_cons, List.map_nil, List.append_assoc, List.cons_append,
      List.nil_append] at hread ⊢
    rw [bind_of_eq_ok (accept_of_kind_ne hleft (by decide))]
    simp only [Bool.false_eq_true, if_false]
    rw [bind_of_eq_ok (at?_eq peek_cons), hleft, if_pos (beq_self_eq_true _),
      bind_of_eq_ok hread]
    exact assignedTo_cons hequal value hsemicolon

theorem complete_instruction : Complete instruction DerivesInstr anyKind := by
  intro ts i h s _
  have hi := h
  rw [instruction]
  cases h with
  | declare hword hx hsemicolon =>
    simp only [List.map_cons, List.map_nil, List.cons_append, List.nil_append]
    rw [bind_of_eq_ok peek_cons]
    simp only [hword]
    rw [bind_of_eq_ok advance_cons, bind_of_eq_ok (expectName_cons hx),
      bind_of_eq_ok (expect_cons hsemicolon)]
    rfl
  | jump hword hl hsemicolon =>
    simp only [List.map_cons, List.map_nil, List.cons_append, List.nil_append]
    rw [bind_of_eq_ok peek_cons]
    simp only [hword]
    rw [bind_of_eq_ok advance_cons, bind_of_eq_ok (expectName_cons hl),
      bind_of_eq_ok (expect_cons hsemicolon)]
    rfl
  | @branch word goto l semicolon ts c hword condition hgoto hl hsemicolon =>
    have hread := complete_expression ts c condition (.ok goto :: .ok l :: .ok semicolon :: s)
      (next_cons (by rw [hgoto]; decide))
    simp only [List.map_append, List.map_cons, List.map_nil, List.append_assoc, List.cons_append,
      List.nil_append]
    rw [bind_of_eq_ok peek_cons]
    simp only [hword]
    rw [bind_of_eq_ok advance_cons, bind_of_eq_ok hread, bind_of_eq_ok (expect_cons hgoto),
      bind_of_eq_ok (expectName_cons hl), bind_of_eq_ok (expect_cons hsemicolon)]
    rfl
  | @call word f left right semicolon ts es hword hf hleft h hright hsemicolon =>
    have hread := complete_arguments (complete_expression_le ts.length) ts es ⟨h, Nat.le_refl _⟩
      (.ok right :: .ok semicolon :: s) (next_cons (beq_iff_eq.2 hright))
    simp only [List.map_append, List.map_cons, List.map_nil, List.append_assoc, List.cons_append,
      List.nil_append]
    rw [bind_of_eq_ok peek_cons]
    simp only [hword]
    rw [bind_of_eq_ok advance_cons, bind_of_eq_ok (expectName_cons hf),
      bind_of_eq_ok (expect_cons hleft), bind_of_eq_ok hread, bind_of_eq_ok (expect_cons hright),
      bind_of_eq_ok (expect_cons hsemicolon)]
    rfl
  | label ht _ | assign ht _ _ _ | store ht _ _ _ _ _ =>
    rw [List.map_cons, List.cons_append, bind_of_eq_ok peek_cons]
    simp only [ht]
    exact complete_labelOrAssignment ht hi

theorem DerivesInstr.start {i : Instr} (h : DerivesInstr ts i) : ∃ t us, ts = t :: us ∧
    t.kind ∈ [.varWord, .gotoWord, .ifWord, .callWord, .identifier] := by
  cases h with
  | declare hkind _ _ | jump hkind _ _ | branch hkind _ _ _ _ | call hkind _ _ _ _ _
  | label hkind _ | assign hkind _ _ _ | store hkind _ _ _ _ _ =>
    exact ⟨_, _, rfl, by rw [hkind]; decide⟩

theorem complete_block : Complete block DerivesBlock anyKind := by
  rintro ts body ⟨left, us, right, rfl, hleft, h, hright⟩ s -
  have hbody : Complete
      (manyWhile (fun t => t.kind != .rightBrace && t.kind != .endOfText) instruction)
      (Repeated DerivesInstr) (· == .rightBrace) := by
    refine complete_manyWhile complete_instruction (fun ts i hi => ?_) fun t ht => ?_
    · obtain ⟨t, us, rfl, ht⟩ := hi.start
      have hstart : ∀ k ∈ [TokenKind.varWord, .gotoWord, .ifWord, .callWord, .identifier],
          (k != .rightBrace && k != .endOfText) = true := by decide
      exact ⟨t, us, rfl, hstart t.kind ht, rfl⟩
    · rw [beq_iff_eq.1 ht]
      exact ⟨rfl, rfl⟩
  have hread := hbody us body h (.ok right :: s) (next_cons (beq_iff_eq.2 hright))
  rw [block]
  simp only [List.map_append, List.map_cons, List.map_nil, List.append_assoc, List.cons_append,
    List.nil_append]
  rw [bind_of_eq_ok (expect_cons hleft), bind_of_eq_ok hread, bind_of_eq_ok (expect_cons hright)]
  rfl

/-! ### Items -/

theorem complete_expectName (what : String) : Complete (expectName what) IsNameToken anyKind := by
  rintro ts x ⟨t, rfl, ht, rfl⟩ s -
  exact expectName_cons ht

theorem complete_loopItem : Complete loopItem DerivesLoop anyKind := by
  intro ts l h s hs
  rw [loopItem]
  cases h with
  | @unbounded word i ts body hword hi h =>
    have hread := complete_block ts body h s hs
    obtain ⟨left, us, right, rfl, hleft, -, -⟩ := h
    simp only [List.map_cons, List.cons_append] at hread ⊢
    rw [bind_of_eq_ok (expect_cons hword), bind_of_eq_ok (expectName_cons hi),
      bind_of_eq_ok (accept_of_kind_ne hleft (by decide))]
    simp only [Bool.false_eq_true, if_false]
    show (block >>= fun body => (pure ⟨i.text, none, body⟩ : Parse LoopItem)) _ = _
    rw [bind_of_eq_ok hread]
    rfl
  | @bounded word i equal upto ts us vs lower upper body hword hi hequal hlower hupto hupper h =>
    have hbody := complete_block ts body h s hs
    obtain ⟨left, ts', right, rfl, hleft, -, -⟩ := h
    have hup := complete_expression vs upper hupper ((left :: (ts' ++ [right])).map .ok ++ s)
      (next_cons (by rw [hleft]; decide))
    have hlow := complete_expression us lower hlower
      (.ok upto :: (vs.map .ok ++ ((left :: (ts' ++ [right])).map .ok ++ s)))
      (next_cons (by rw [hupto]; decide))
    rw [List.map_cons, List.map_cons, List.map_cons, List.map_append, List.map_cons,
      List.map_append, List.cons_append, List.cons_append, List.cons_append, List.append_assoc,
      List.cons_append, List.append_assoc]
    rw [bind_of_eq_ok (expect_cons hword), bind_of_eq_ok (expectName_cons hi),
      bind_of_eq_ok (accept_cons hequal), if_pos rfl, bind_of_eq_ok hlow,
      bind_of_eq_ok (expect_cons hupto), bind_of_eq_ok hup]
    show (block >>= fun body =>
      (pure ⟨i.text, some (lower, upper), body⟩ : Parse LoopItem)) _ = _
    rw [bind_of_eq_ok hbody]
    rfl

theorem complete_procedureItem : Complete procedureItem DerivesProcedure anyKind := by
  rintro ts f ⟨hword, hf, hleft, hparameters, hright, h⟩ s hs
  rename_i word f left right ts us parameters body
  have hbody := complete_block ts body h s hs
  rw [procedureItem]
  simp only [List.map_append, List.map_cons, List.append_assoc, List.cons_append]
  rw [bind_of_eq_ok (expect_cons hword), bind_of_eq_ok (expectName_cons hf),
    bind_of_eq_ok (expect_cons hleft)]
  obtain ⟨rfl, rfl⟩ | hus := hparameters
  · rw [List.map_nil, List.nil_append, bind_of_eq_ok (at?_eq peek_cons), hright]
    show (expect .rightParen " after parameters" >>= fun _ => block >>= fun body =>
      (pure ⟨f.text, [], body⟩ : Parse Procedure)) _ = _
    rw [bind_of_eq_ok (expect_cons hright), bind_of_eq_ok hbody]
    rfl
  · have hnames : Complete (commaSeparated (expectName "parameter name"))
        (Separated IsNameToken) (· == .rightParen) :=
      complete_commaSeparated (complete_expectName _) rfl
        fun k hk => by rw [beq_iff_eq.1 hk]; decide
    have hread := hnames us parameters hus (.ok right :: (ts.map .ok ++ s))
      (next_cons (beq_iff_eq.2 hright))
    obtain ⟨us', vs, x, ys, rfl, rfl, ⟨t, rfl, ht, rfl⟩, -⟩ := hus
    rw [List.singleton_append, List.map_cons, List.cons_append] at hread ⊢
    rw [bind_of_eq_ok (at?_eq peek_cons), ht]
    show (commaSeparated (expectName "parameter name") >>= fun parameters =>
      expect .rightParen " after parameters" >>= fun _ => block >>= fun body =>
        (pure ⟨f.text, parameters, body⟩ : Parse Procedure)) _ = _
    rw [bind_of_eq_ok hread, bind_of_eq_ok (expect_cons hright), bind_of_eq_ok hbody]
    rfl

theorem complete_rebinding : Complete rebinding DerivesRebinding anyKind := by
  rintro ts r ⟨kind, left, value, right, rfl, hkind, hleft, hvalue, hright⟩ s -
  rw [rebinding]
  simp only [List.map_cons, List.map_nil, List.cons_append, List.nil_append]
  rw [bind_of_eq_ok (word_cons hkind), bind_of_eq_ok (expect_cons hleft),
    bind_of_eq_ok (word_cons hvalue), bind_of_eq_ok (expect_cons hright)]
  rfl

theorem complete_symbolItem : Complete symbolItem DerivesSymbol anyKind := by
  rintro ts x ⟨hword, hx, hcolon, hv, helement, hdimensions, hrebindings, hsemicolon⟩ s hs
  rename_i word x colon v element semicolon ts us visibility dimensions rebindings
  have hdimension : Complete (manyWhile (·.kind == .leftBracket) do
      advance
      expect .rightBracket " in array type") (Repeated DerivesDimension) (· != .leftBracket) := by
    have hitem : Complete (do advance; expect .rightBracket " in array type") DerivesDimension
        anyKind := by
      rintro ts ⟨⟩ ⟨left, right, rfl, -, hright⟩ s -
      exact expect_cons hright
    refine complete_manyWhile hitem ?_ fun t ht => ⟨beq_false_of_ne (bne_iff_ne.1 ht), rfl⟩
    rintro ts ⟨⟩ ⟨left, right, rfl, hleft, -⟩
    exact ⟨left, [right], rfl, beq_iff_eq.2 hleft, rfl⟩
  have hrebinding : Complete (manyWhile (·.kind == .identifier) rebinding)
      (Repeated DerivesRebinding) (· == .semicolon) := by
    refine complete_manyWhile complete_rebinding ?_ fun t ht => by
      rw [beq_iff_eq.1 ht]
      exact ⟨rfl, rfl⟩
    rintro ts r ⟨kind, left, value, right, rfl, hkind, -⟩
    exact ⟨kind, _, rfl, beq_iff_eq.2 hkind.1, rfl⟩
  have hus := hrebinding us rebindings hrebindings (.ok semicolon :: s)
    (next_cons (beq_iff_eq.2 hsemicolon))
  have hnext : Next (· != .leftBracket) (us.map .ok ++ .ok semicolon :: s) := by
    refine hrebindings.next ?_ (next_cons (by rw [hsemicolon]; decide))
    rintro ts r ⟨kind, left, value, right, rfl, hkind, -⟩
    exact ⟨kind, _, rfl, by rw [hkind.1]; decide⟩
  have hts := hdimension ts dimensions hdimensions _ hnext
  rw [symbolItem]
  simp only [List.map_append, List.map_cons, List.map_nil, List.append_assoc, List.cons_append,
    List.nil_append]
  rw [bind_of_eq_ok (expect_cons hword), bind_of_eq_ok (expectName_cons hx),
    bind_of_eq_ok (expect_cons hcolon), bind_of_eq_ok (word_cons hv),
    bind_of_eq_ok (expectName_cons helement), bind_of_eq_ok hts, bind_of_eq_ok hus,
    bind_of_eq_ok (expect_cons hsemicolon)]
  rfl

theorem complete_item (items : Items) : Complete (item items)
    (fun ts items' => ∃ x, DerivesItem ts x ∧ items.add x = some items') anyKind := by
  rintro ts items' ⟨x, hx, hadd⟩ s hs
  rw [item]
  cases hx with
  | @symbol x h =>
    have hread := complete_symbolItem ts x h s hs
    obtain ⟨hword, _⟩ := h
    rw [List.map_cons, List.cons_append] at hread ⊢
    rw [bind_of_eq_ok peek_cons]
    simp only [hword]
    obtain ⟨hnew, hadd⟩ := Option.ite_none_left_eq_some.1 hadd
    cases hadd
    rw [bind_of_eq_ok hread, if_neg hnew]
    rfl
  | @procedure f h =>
    have hread := complete_procedureItem ts f h s hs
    obtain ⟨hword, _⟩ := h
    rw [List.map_cons, List.cons_append] at hread ⊢
    rw [bind_of_eq_ok peek_cons]
    simp only [hword]
    obtain ⟨hnew, hadd⟩ := Option.ite_none_left_eq_some.1 hadd
    cases hadd
    rw [bind_of_eq_ok hread, if_neg hnew]
    rfl
  | @loop l h =>
    have hread := complete_loopItem ts l h s hs
    have hword : ∃ t us, ts = t :: us ∧ t.kind = .loopWord := by
      cases h with
      | unbounded hword _ _ | bounded hword _ _ _ _ _ _ => exact ⟨_, _, rfl, hword⟩
    obtain ⟨t, us, rfl, ht⟩ := hword
    rw [List.map_cons, List.cons_append] at hread ⊢
    rw [bind_of_eq_ok peek_cons]
    simp only [ht]
    obtain ⟨hnew, hadd⟩ := Option.ite_none_left_eq_some.1 hadd
    cases hadd
    rw [bind_of_eq_ok hread, if_neg hnew]
    rfl

theorem complete_itemsWithin {items items' : Items} {xs : List Item}
    (h : Repeated DerivesItem ts xs) (hadd : xs.foldlM Items.add items = some items') {n : Nat}
    (hn : ts.length ≤ n) (hs : Next (· == .endOfText) s) :
    itemsWithin n items (ts.map .ok ++ s) = .ok (items', s) := by
  induction h generalizing items n with
  | nil =>
    obtain ⟨t, hpeek, ht⟩ := hs
    cases hadd
    cases n with
    | zero => rfl
    | succ n =>
      rw [itemsWithin, List.map_nil, List.nil_append, bind_of_eq_ok (at?_eq hpeek), if_pos ht]
      rfl
  | @cons ts us x xs hitem _ ih =>
    obtain ⟨items1, hx, hxs⟩ := Option.bind_eq_some_iff.1 hadd
    obtain ⟨t, ts', rfl, ht⟩ := hitem.start
    rw [List.length_append, List.length_cons] at hn
    obtain ⟨n, rfl⟩ : ∃ m, n = m + 1 := ⟨n - 1, by omega⟩
    have hnext : Next anyKind (us.map .ok ++ s) := by
      cases us with
      | nil => exact hs.imp fun _ _ => rfl
      | cons u us => exact next_cons rfl
    have hread := complete_item items _ items1 ⟨x, hitem, hx⟩ _ hnext
    rw [itemsWithin, List.map_append, List.append_assoc]
    rw [List.map_cons, List.cons_append] at hread ⊢
    rw [bind_of_eq_ok (at?_eq peek_cons), beq_false_of_ne ht]
    simp only [Bool.false_eq_true, if_false]
    rw [bind_of_eq_ok hread]
    exact ih hxs (by omega)

/-- The tokens of a program are read as it, up to the end of the text. -/
theorem complete_program : Complete program DerivesProgram (· == .endOfText) := by
  rintro ts p ⟨xs, hxs, hmake⟩ s hs
  obtain ⟨items, l, hadd, hloop, rfl⟩ := makeProgram_iff.1 hmake
  have hread := complete_itemsWithin hxs hadd (Nat.le_add_right ts.length s.length) hs
  have hget : (get : Parse Stream) (ts.map .ok ++ s) = .ok (ts.map .ok ++ s, ts.map .ok ++ s) := rfl
  rw [program, bind_of_eq_ok hget, List.length_append, List.length_map, bind_of_eq_ok hread, hloop]
  rfl

/-- **What follows the grammar is read from a listing.** -/
theorem parse_of_derivesProgram {text : String} {p : Program} {rest : Stream}
    (hscan : scan text = ts.map .ok ++ rest) (hrest : Next (· == .endOfText) rest)
    (h : DerivesProgram ts p) : parse text = .ok p := by
  show (program (scan text)).map (·.1) = .ok p
  rw [hscan, complete_program ts p h rest hrest]
  rfl

end ParLoop.Listing
