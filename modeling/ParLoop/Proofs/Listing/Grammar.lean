import ParLoop.Listing.Parse

/-!
# The grammar of listings

Which tokens stand for which expression, instruction, item and program. A token counts by its kind
and, where it is a name, a number or a word, by its text.

* `Derives`: expressions. The binary operators stand on ten levels and associate to the left, a
  minus sign before a literal makes a literal, and everything else is written as it is built.
* `DerivesInstr`, `DerivesBlock`: instructions and bodies.
* `DerivesItem`, `DerivesProgram`: items in any order, one loop among them, no name twice.
-/

namespace ParLoop.Listing

/-! ### Repetition -/

/-- Phrases of one form, one behind the other. -/
inductive Repeated {α : Type} (form : List Token → α → Prop) : List Token → List α → Prop where
  | nil : Repeated form [] []
  | cons {ts us : List Token} {x : α} {xs : List α} (head : form ts x)
      (tail : Repeated form us xs) : Repeated form (ts ++ us) (x :: xs)

namespace Repeated

variable {α : Type} {form form' : List Token → α → Prop} {ts us : List Token} {x : α} {xs : List α}

theorem single (h : form ts x) : Repeated form ts [x] := by
  have hone := Repeated.cons h .nil
  rwa [List.append_nil] at hone

theorem append {ys : List α} (h : Repeated form ts xs) (h' : Repeated form us ys) :
    Repeated form (ts ++ us) (xs ++ ys) := by
  induction h with
  | nil => exact h'
  | cons head _ ih =>
    rw [List.append_assoc]
    exact .cons head ih

/-- Phrases of one form as phrases of another one. -/
theorem map {β : Type} {form' : List Token → β → Prop} {f : α → β}
    (hmap : ∀ us x, form us x → form' us (f x)) (h : Repeated form ts xs) :
    Repeated form' ts (xs.map f) := by
  induction h with
  | nil => exact .nil
  | cons head _ ih => exact .cons (hmap _ _ head) ih

theorem imp (himp : ∀ us x, form us x → form' us x) (h : Repeated form ts xs) :
    Repeated form' ts xs := by
  have hmap := h.map (f := id) himp
  rwa [List.map_id] at hmap

/-- Each phrase has its own tokens among those of all. -/
theorem exists_of_mem (h : Repeated form ts xs) (hx : x ∈ xs) : ∃ us, form us x ∧ us ⊆ ts := by
  induction h with
  | nil => cases hx
  | @cons ts us y xs head _ ih =>
    obtain rfl | hx := List.mem_cons.1 hx
    · exact ⟨ts, head, List.subset_append_left ts us⟩
    · obtain ⟨vs, hvs, hsubset⟩ := ih hx
      exact ⟨vs, hvs, List.Subset.trans hsubset (List.subset_append_right ts us)⟩

end Repeated

/-- A comma and a phrase. -/
def AfterComma {α : Type} (form : List Token → α → Prop) (ts : List Token) (x : α) : Prop :=
  ∃ comma us, ts = comma :: us ∧ comma.kind = .comma ∧ form us x

/-- A phrase, and others with commas before them. -/
def Separated {α : Type} (form : List Token → α → Prop) (ts : List Token) (xs : List α) : Prop :=
  ∃ us vs x ys, ts = us ++ vs ∧ xs = x :: ys ∧ form us x ∧ Repeated (AfterComma form) vs ys

/-- A single name. -/
def IsNameToken (ts : List Token) (x : String) : Prop :=
  ∃ t, ts = [t] ∧ t.kind = .identifier ∧ x = t.text

/-! ### Expressions -/

/-- The phrases inside an expression. -/
inductive Phrase where
  | expression
  /-- Operands joined by the operators of some levels, the loosest level first. -/
  | joined (levels : List (List (TokenKind × BinaryOp)))
  /-- A primary phrase behind any number of minus signs. -/
  | operand
  | primary
  | arguments
  /-- Arguments with commas before them. -/
  | moreArguments
  | indices

/-- Whether a phrase stands for one expression. -/
def Phrase.isExpression : Phrase → Bool
  | .expression | .joined _ | .operand | .primary => true
  | .arguments | .moreArguments | .indices => false

/-- The expressions that the tokens of a phrase stand for: one, except for arguments and indices. -/
inductive Derives : Phrase → List Token → List Expr → Prop where
  | plain {ts : List Token} {e : Expr} (h : Derives (.joined operatorLevels) ts [e]) :
      Derives .expression ts [e]
  | conditional {ts us vs : List Token} {question colon : Token} {c t f : Expr}
      (test : Derives (.joined operatorLevels) ts [c]) (hquestion : question.kind = .question)
      (whenTrue : Derives .expression us [t]) (hcolon : colon.kind = .colon)
      (whenFalse : Derives .expression vs [f]) :
      Derives .expression (ts ++ question :: (us ++ colon :: vs)) [.cond c t f]
  | unjoined {ts : List Token} {e : Expr} (h : Derives .operand ts [e]) :
      Derives (.joined []) ts [e]
  | tighter {level : List (TokenKind × BinaryOp)} {levels : List (List (TokenKind × BinaryOp))}
      {ts : List Token} {e : Expr} (h : Derives (.joined levels) ts [e]) :
      Derives (.joined (level :: levels)) ts [e]
  | operator {level : List (TokenKind × BinaryOp)} {levels : List (List (TokenKind × BinaryOp))}
      {ts us : List Token} {sign : Token} {op : BinaryOp} {l r : Expr}
      (left : Derives (.joined (level :: levels)) ts [l]) (hop : level.lookup sign.kind = some op)
      (right : Derives (.joined levels) us [r]) :
      Derives (.joined (level :: levels)) (ts ++ sign :: us) [.binary op l r]
  | unsigned {ts : List Token} {e : Expr} (h : Derives .primary ts [e]) : Derives .operand ts [e]
  | minus {ts : List Token} {minus : Token} {e : Expr} (hminus : minus.kind = .minus)
      (h : Derives .operand ts [e]) : Derives .operand (minus :: ts) [negated e]
  | int {t : Token} (ht : t.kind = .integer) (hrange : digitsValue t.text.toList ≤ maxInteger) :
      Derives .primary [t] [.int (digitsValue t.text.toList)]
  | double {t : Token} (ht : t.kind = .float) :
      Derives .primary [t] [.double (.ofDecimal false (decimalValue t.text.toList))]
  | name {t : Token} (ht : t.kind = .identifier) : Derives .primary [t] [.var t.text]
  | call {t left right : Token} {ts : List Token} {es : List Expr} (ht : t.kind = .identifier)
      (hleft : left.kind = .leftParen) (h : Derives .arguments ts es)
      (hright : right.kind = .rightParen) :
      Derives .primary (t :: left :: (ts ++ [right])) [.call t.text es]
  | access {t : Token} {ts : List Token} {is : List Expr} (ht : t.kind = .identifier)
      (h : Derives .indices ts is) (hsome : is ≠ []) :
      Derives .primary (t :: ts) [.access t.text is]
  | paren {left right : Token} {ts : List Token} {e : Expr} (hleft : left.kind = .leftParen)
      (h : Derives .expression ts [e]) (hright : right.kind = .rightParen) :
      Derives .primary (left :: (ts ++ [right])) [.paren e]
  | noArguments : Derives .arguments [] []
  | argument {ts us : List Token} {e : Expr} {es : List Expr} (first : Derives .expression ts [e])
      (rest : Derives .moreArguments us es) : Derives .arguments (ts ++ us) (e :: es)
  | noMore : Derives .moreArguments [] []
  | more {ts us : List Token} {comma : Token} {e : Expr} {es : List Expr}
      (hcomma : comma.kind = .comma) (first : Derives .expression ts [e])
      (rest : Derives .moreArguments us es) :
      Derives .moreArguments (comma :: (ts ++ us)) (e :: es)
  | noIndex : Derives .indices [] []
  | index {ts us : List Token} {left right : Token} {e : Expr} {es : List Expr}
      (hleft : left.kind = .leftBracket) (first : Derives .expression ts [e])
      (hright : right.kind = .rightBracket) (rest : Derives .indices us es) :
      Derives .indices (left :: (ts ++ right :: us)) (e :: es)

/-- The tokens of an expression. -/
abbrev DerivesExpr (ts : List Token) (e : Expr) : Prop := Derives .expression ts [e]

/-! ### Chains

Operands of one level, signs, arguments and indices are repetitions, which is how they are read. -/

/-- An operator of a level and its right operand. -/
def DerivesOperation (level : List (TokenKind × BinaryOp))
    (levels : List (List (TokenKind × BinaryOp))) (ts : List Token) (r : BinaryOp × Expr) : Prop :=
  ∃ sign us, ts = sign :: us ∧ level.lookup sign.kind = some r.1 ∧
    Derives (.joined levels) us [r.2]

/-- An expression in brackets. -/
def DerivesIndex (ts : List Token) (e : Expr) : Prop :=
  ∃ left us right, ts = left :: (us ++ [right]) ∧ left.kind = .leftBracket ∧ DerivesExpr us e ∧
    right.kind = .rightBracket

/-- A minus sign. -/
def DerivesMinus (ts : List Token) (_ : Unit) : Prop := ∃ t, ts = [t] ∧ t.kind = .minus

theorem mem_of_lookup_eq_some {level : List (TokenKind × BinaryOp)} {kind : TokenKind}
    {op : BinaryOp} (h : level.lookup kind = some op) : (kind, op) ∈ level := by
  induction level with
  | nil => cases h
  | cons e level ih =>
    obtain ⟨k, x⟩ := e
    by_cases hk : kind = k
    · rw [hk, List.lookup_cons_self, Option.some_inj] at h
      rw [hk, h]
      exact List.mem_cons_self
    · rw [List.lookup_cons, beq_false_of_ne hk] at h
      exact List.mem_cons_of_mem _ (ih h)

theorem negated_foldl (signs : List Unit) (e : Expr) :
    signs.foldl (fun e _ => negated e) (negated e) =
      negated (signs.foldl (fun e _ => negated e) e) := by
  induction signs generalizing e with
  | nil => rfl
  | cons _ signs ih => exact ih (negated e)

namespace Derives

variable {ts us : List Token} {e : Expr} {es : List Expr} {level : List (TokenKind × BinaryOp)}
  {levels : List (List (TokenKind × BinaryOp))}

/-- Operators of one level associate to the left. -/
theorem foldl_operation {l : Expr} {rest : List (BinaryOp × Expr)}
    (h : Derives (.joined (level :: levels)) ts [l])
    (hrest : Repeated (DerivesOperation level levels) us rest) :
    Derives (.joined (level :: levels)) (ts ++ us)
      [rest.foldl (fun left r => .binary r.1 left r.2) l] := by
  induction hrest generalizing ts l with
  | nil => rwa [List.append_nil]
  | cons head _ ih =>
    obtain ⟨sign, us, rfl, hop, hright⟩ := head
    rw [← List.append_assoc]
    exact ih (h.operator hop hright)

theorem exists_operations (h : Derives (.joined (level :: levels)) ts [e]) :
    ∃ us vs l rest, ts = us ++ vs ∧ Derives (.joined levels) us [l] ∧
      Repeated (DerivesOperation level levels) vs rest ∧
      e = rest.foldl (fun left r => .binary r.1 left r.2) l := by
  generalize hphrase : Phrase.joined (level :: levels) = phrase at h
  generalize hes : [e] = es at h
  induction h generalizing e with
  | tighter h _ =>
    cases hphrase
    cases hes
    exact ⟨_, [], _, [], (List.append_nil _).symm, h, .nil, rfl⟩
  | @operator _ _ ts us sign op l r left hop right ih _ =>
    cases hphrase
    cases hes
    obtain ⟨us', vs, l', rest, rfl, hl, hrest, rfl⟩ := ih rfl rfl
    have hlast : DerivesOperation level levels (sign :: us) (op, r) :=
      ⟨sign, us, rfl, hop, right⟩
    refine ⟨us', vs ++ sign :: us, l', rest ++ [(op, r)], List.append_assoc .., hl,
      hrest.append (.single hlast), ?_⟩
    rw [List.foldl_append]
    rfl
  | _ => cases hphrase

theorem foldl_minus {signs : List Unit} (h : Repeated DerivesMinus ts signs)
    (he : Derives .operand us [e]) :
    Derives .operand (ts ++ us) [signs.foldl (fun e _ => negated e) e] := by
  induction h with
  | nil => exact he
  | cons head _ ih =>
    obtain ⟨t, rfl, ht⟩ := head
    rw [List.foldl_cons, negated_foldl]
    exact .minus ht ih

theorem exists_signs (h : Derives .operand ts [e]) :
    ∃ us vs signs e', ts = us ++ vs ∧ Repeated DerivesMinus us signs ∧
      Derives .primary vs [e'] ∧ e = signs.foldl (fun e _ => negated e) e' := by
  generalize hphrase : Phrase.operand = phrase at h
  generalize hes : [e] = es at h
  induction h generalizing e with
  | unsigned h _ =>
    cases hes
    exact ⟨[], _, [], _, rfl, .nil, h, rfl⟩
  | @minus ts t e hminus _ ih =>
    cases hes
    obtain ⟨us, vs, signs, e', rfl, hsigns, he, rfl⟩ := ih rfl rfl
    refine ⟨[t] ++ us, vs, () :: signs, e', rfl, .cons ⟨t, rfl, hminus⟩ hsigns, he, ?_⟩
    rw [List.foldl_cons, negated_foldl]
  | _ => cases hphrase

theorem moreArguments_iff :
    Derives .moreArguments ts es ↔ Repeated (AfterComma DerivesExpr) ts es := by
  constructor
  · intro h
    generalize hphrase : Phrase.moreArguments = phrase at h
    induction h with
    | noMore => exact .nil
    | more hcomma first _ _ ih => exact .cons ⟨_, _, rfl, hcomma, first⟩ (ih rfl)
    | _ => cases hphrase
  · intro h
    induction h with
    | nil => exact .noMore
    | cons head _ ih =>
      obtain ⟨comma, us, rfl, hcomma, he⟩ := head
      exact .more hcomma he ih

theorem indices_iff : Derives .indices ts es ↔ Repeated DerivesIndex ts es := by
  constructor
  · intro h
    generalize hphrase : Phrase.indices = phrase at h
    induction h with
    | noIndex => exact .nil
    | @index ts us left right _ _ hleft first hright _ _ ih =>
      have hindex := Repeated.cons ⟨left, ts, right, rfl, hleft, first, hright⟩ (ih rfl)
      simpa using hindex
    | _ => cases hphrase
  · intro h
    induction h with
    | nil => exact .noIndex
    | cons head _ ih =>
      obtain ⟨left, us, right, rfl, hleft, he, hright⟩ := head
      have hindex := Derives.index hleft he hright ih
      simpa using hindex

end Derives

/-! ### Instructions -/

/-- The tokens of an instruction. -/
inductive DerivesInstr : List Token → Instr → Prop where
  | declare {word x semicolon : Token} (hword : word.kind = .varWord) (hx : x.kind = .identifier)
      (hsemicolon : semicolon.kind = .semicolon) :
      DerivesInstr [word, x, semicolon] (.declare x.text)
  | jump {word l semicolon : Token} (hword : word.kind = .gotoWord) (hl : l.kind = .identifier)
      (hsemicolon : semicolon.kind = .semicolon) : DerivesInstr [word, l, semicolon] (.jump l.text)
  | branch {word goto l semicolon : Token} {ts : List Token} {c : Expr}
      (hword : word.kind = .ifWord) (condition : DerivesExpr ts c) (hgoto : goto.kind = .gotoWord)
      (hl : l.kind = .identifier) (hsemicolon : semicolon.kind = .semicolon) :
      DerivesInstr (word :: (ts ++ [goto, l, semicolon])) (.branch c l.text)
  | call {word f left right semicolon : Token} {ts : List Token} {es : List Expr}
      (hword : word.kind = .callWord) (hf : f.kind = .identifier) (hleft : left.kind = .leftParen)
      (h : Derives .arguments ts es) (hright : right.kind = .rightParen)
      (hsemicolon : semicolon.kind = .semicolon) :
      DerivesInstr (word :: f :: left :: (ts ++ [right, semicolon])) (.call f.text es)
  | label {l colon : Token} (hl : l.kind = .identifier) (hcolon : colon.kind = .colon) :
      DerivesInstr [l, colon] (.label l.text)
  | assign {x equal semicolon : Token} {ts : List Token} {v : Expr} (hx : x.kind = .identifier)
      (hequal : equal.kind = .equal) (value : DerivesExpr ts v)
      (hsemicolon : semicolon.kind = .semicolon) :
      DerivesInstr (x :: equal :: (ts ++ [semicolon])) (.assign (.var x.text) v)
  | store {a equal semicolon : Token} {us ts : List Token} {is : List Expr} {v : Expr}
      (ha : a.kind = .identifier) (h : Derives .indices us is) (hsome : is ≠ [])
      (hequal : equal.kind = .equal) (value : DerivesExpr ts v)
      (hsemicolon : semicolon.kind = .semicolon) :
      DerivesInstr (a :: (us ++ equal :: (ts ++ [semicolon]))) (.assign (.access a.text is) v)

/-- The tokens of instructions in braces. -/
def DerivesBlock (ts : List Token) (body : List Instr) : Prop :=
  ∃ left us right, ts = left :: (us ++ [right]) ∧ left.kind = .leftBrace ∧
    Repeated DerivesInstr us body ∧ right.kind = .rightBrace

/-! ### Items -/

/-- The tokens of a loop. -/
inductive DerivesLoop : List Token → LoopItem → Prop where
  | unbounded {word i : Token} {ts : List Token} {body : List Instr} (hword : word.kind = .loopWord)
      (hi : i.kind = .identifier) (h : DerivesBlock ts body) :
      DerivesLoop (word :: i :: ts) ⟨i.text, none, body⟩
  | bounded {word i equal upto : Token} {ts us vs : List Token} {lower upper : Expr}
      {body : List Instr} (hword : word.kind = .loopWord) (hi : i.kind = .identifier)
      (hequal : equal.kind = .equal) (hlower : DerivesExpr us lower) (hupto : upto.kind = .toWord)
      (hupper : DerivesExpr vs upper) (h : DerivesBlock ts body) :
      DerivesLoop (word :: i :: equal :: (us ++ upto :: (vs ++ ts)))
        ⟨i.text, some (lower, upper), body⟩

/-- The tokens of a procedure. -/
inductive DerivesProcedure : List Token → Procedure → Prop where
  | intro {word f left right : Token} {ts us : List Token} {parameters : List String}
      {body : List Instr} (hword : word.kind = .procWord) (hf : f.kind = .identifier)
      (hleft : left.kind = .leftParen)
      (hparameters : us = [] ∧ parameters = [] ∨ Separated IsNameToken us parameters)
      (hright : right.kind = .rightParen) (h : DerivesBlock ts body) :
      DerivesProcedure (word :: f :: left :: (us ++ right :: ts)) ⟨f.text, parameters, body⟩

/-- A word of a list, with what it means. -/
def IsWord {α : Type} (words : List (String × α)) (t : Token) (x : α) : Prop :=
  t.kind = .identifier ∧ words.lookup t.text = some x

/-- The tokens of a place where a symbol is rebound. -/
def DerivesRebinding (ts : List Token) (r : Rebinding) : Prop :=
  ∃ kind left value right, ts = [kind, left, value, right] ∧
    IsWord rebindingKindWords kind r.kind ∧ left.kind = .leftParen ∧
    IsWord rebindingValueWords value r.value ∧ right.kind = .rightParen

/-- The tokens of one dimension of an array type. -/
def DerivesDimension (ts : List Token) (_ : Unit) : Prop :=
  ∃ left right, ts = [left, right] ∧ left.kind = .leftBracket ∧ right.kind = .rightBracket

/-- The tokens of a symbol. -/
inductive DerivesSymbol : List Token → Symbol → Prop where
  | intro {word x colon v element semicolon : Token} {ts us : List Token} {visibility : Visibility}
      {dimensions : List Unit} {rebindings : List Rebinding} (hword : word.kind = .symbolWord)
      (hx : x.kind = .identifier) (hcolon : colon.kind = .colon)
      (hv : IsWord visibilityWords v visibility) (helement : element.kind = .identifier)
      (hdimensions : Repeated DerivesDimension ts dimensions)
      (hrebindings : Repeated DerivesRebinding us rebindings)
      (hsemicolon : semicolon.kind = .semicolon) :
      DerivesSymbol (word :: x :: colon :: v :: element :: (ts ++ (us ++ [semicolon])))
        ⟨x.text, visibility, .named element.text, dimensions.length, rebindings⟩

/-- An item of a listing. -/
inductive Item where
  | symbol (s : Symbol)
  | procedure (f : Procedure)
  | loop (l : LoopItem)

namespace Item

/-- The symbol of an item. -/
def symbol? : Item → Option Symbol
  | .symbol s => some s
  | .procedure _ | .loop _ => none

/-- The procedure of an item. -/
def procedure? : Item → Option Procedure
  | .procedure f => some f
  | .symbol _ | .loop _ => none

/-- The loop of an item. -/
def loop? : Item → Option LoopItem
  | .loop l => some l
  | .symbol _ | .procedure _ => none

end Item

/-- The tokens of an item. -/
inductive DerivesItem : List Token → Item → Prop where
  | symbol {ts : List Token} {s : Symbol} (h : DerivesSymbol ts s) : DerivesItem ts (.symbol s)
  | procedure {ts : List Token} {f : Procedure} (h : DerivesProcedure ts f) :
      DerivesItem ts (.procedure f)
  | loop {ts : List Token} {l : LoopItem} (h : DerivesLoop ts l) : DerivesItem ts (.loop l)

theorem DerivesItem.start {ts : List Token} {x : Item} (h : DerivesItem ts x) :
    ∃ t us, ts = t :: us ∧ t.kind ≠ .endOfText := by
  cases h with
  | symbol h =>
    obtain ⟨hword, _⟩ := h
    exact ⟨_, _, rfl, by rw [hword]; decide⟩
  | procedure h =>
    obtain ⟨hword, _⟩ := h
    exact ⟨_, _, rfl, by rw [hword]; decide⟩
  | loop h =>
    cases h with
    | unbounded hword _ _ | bounded hword _ _ _ _ _ _ =>
      exact ⟨_, _, rfl, by rw [hword]; decide⟩

/-- The table of some values under their own names. -/
def tableOf {β : Type} (name : β → String) (bs : List β) : NameMap β :=
  .ofList (bs.map fun b => (name b, b))

/-- Items make a program if one of them is a loop and no two procedures and no two symbols have the
same name. -/
structure MakeProgram (items : List Item) (p : Program) : Prop where
  loop : ∃ bounds, items.filterMap Item.loop? = [⟨p.counter, bounds, p.body⟩] ∧
    p.lower = bounds.map (·.1) ∧ p.upper = bounds.map (·.2)
  distinctProcedures : ((items.filterMap Item.procedure?).map Procedure.name).Nodup
  distinctSymbols : ((items.filterMap Item.symbol?).map Symbol.name).Nodup
  procedures : p.procedures = tableOf Procedure.name (items.filterMap Item.procedure?)
  symbols : p.symbols = tableOf Symbol.name (items.filterMap Item.symbol?)

/-- The tokens of a program, up to the end of the text. -/
def DerivesProgram (ts : List Token) (p : Program) : Prop :=
  ∃ items, Repeated DerivesItem ts items ∧ MakeProgram items p

end ParLoop.Listing
