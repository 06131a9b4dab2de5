import ParLoop.Proofs.Listing.Sound

/-!
# Places do not matter to the parser

Two streams of tokens are alike if their tokens have the same kinds and texts. The parser reads
alike streams alike (`placeless_program`): it gives the same program, or reports the same fault
about the same text. Two computations are compared by one judgement (`SameRead`), which has a rule
for each way in which the parser is put together; one lemma for each phrase follows the definition
of the phrase.
-/

namespace ParLoop.Listing

variable {α β : Type}

/-! ### Alike streams -/

/-- Tokens of the same kinds and texts, wherever they stand. -/
inductive Alike : Stream → Stream → Prop where
  | nil : Alike [] []
  | cons {s s' : Stream} (kind : TokenKind) (text : String) (span span' : Span) (h : Alike s s') :
      Alike (.ok ⟨kind, text, span⟩ :: s) (.ok ⟨kind, text, span'⟩ :: s')

theorem Alike.length_eq {s s' : Stream} (h : Alike s s') : s.length = s'.length := by
  induction h with
  | nil => rfl
  | cons kind text span span' _ ih => rw [List.length_cons, List.length_cons, ih]

theorem Alike.tail {s s' : Stream} (h : Alike s s') : Alike s.tail s'.tail := by
  cases h with
  | nil => exact .nil
  | cons _ _ _ _ h => exact h

/-- Results that agree, or parsing faults of the same cause about the same text. -/
inductive Agree (R : α → β → Prop) : Except ReadError α → Except ReadError β → Prop where
  | ok {a : α} {b : β} (h : R a b) : Agree R (.ok a) (.ok b)
  | fault (cause : ParseCause) (span span' : Span) (found : String) :
      Agree R (.error (.parse ⟨cause, span, found⟩)) (.error (.parse ⟨cause, span', found⟩))

/-- Computations that read alike streams alike, and leave alike streams. -/
def SameRead (p q : Parse α) : Prop :=
  ∀ s s', Alike s s' → Agree (fun r r' => r.1 = r'.1 ∧ Alike r.2 r'.2) (p s) (q s')

/-- A computation that does not look at places. -/
abbrev Placeless (p : Parse α) : Prop := SameRead p p

/-! ### Rules -/

namespace SameRead

theorem pure (a : α) : Placeless (Pure.pure a) := fun _ _ h => .ok ⟨rfl, h⟩

theorem bind {p q : Parse α} {f g : α → Parse β} (hp : SameRead p q)
    (hf : ∀ a, SameRead (f a) (g a)) : SameRead (p >>= f) (q >>= g) := by
  intro s s' h
  have hread := hp s s' h
  show Agree _ (p s >>= fun r => f r.1 r.2) (q s' >>= fun r => g r.1 r.2)
  generalize p s = x at hread ⊢
  generalize q s' = y at hread ⊢
  cases hread with
  | @ok r r' hr =>
    obtain ⟨heq, halike⟩ := hr
    have hnext := hf r.1 r.2 r'.2 halike
    show Agree _ (f r.1 r.2) (g r'.1 r'.2)
    rw [← heq]
    exact hnext
  | fault cause span span' found => exact .fault cause span span' found

/-- Two computations that look at the current token may use its place in different ways. -/
theorem peek_bind {f g : Token → Parse α}
    (h : ∀ kind text span span', SameRead (f ⟨kind, text, span⟩) (g ⟨kind, text, span'⟩)) :
    SameRead (peek >>= f) (peek >>= g) := by
  intro s s' halike
  cases halike with
  | nil => exact h .endOfText "" ⟨.start, .start⟩ ⟨.start, .start⟩ [] [] .nil
  | cons kind text span span' halike =>
    exact h kind text span span' _ _ (.cons kind text span span' halike)

/-- The number of tokens that are left is the same. -/
theorem length_bind {f : Nat → Parse α} (h : ∀ n, Placeless (f n)) :
    Placeless (get >>= fun s : Stream => f s.length) := by
  intro s s' halike
  have hrun := h s.length s s' halike
  show Agree _ (f s.length s) (f s'.length s')
  rw [← halike.length_eq]
  exact hrun

theorem failAt (span span' : Span) (cause : ParseCause) :
    SameRead (failAt span cause : Parse α) (Listing.failAt span' cause) := by
  refine peek_bind fun kind text _ _ s s' _ => ?_
  exact .fault cause span span' (Token.found ⟨kind, text, span⟩)

end SameRead

/-! ### Single tokens -/

theorem placeless_fail (cause : ParseCause) : Placeless (fail cause : Parse α) :=
  .peek_bind fun _ _ span span' => .failAt span span' cause

theorem placeless_advance : Placeless advance := fun _ _ h => .ok ⟨rfl, h.tail⟩

theorem placeless_at? (kind : TokenKind) : Placeless (at? kind) :=
  .peek_bind fun k _ _ _ => .pure (k == kind)

theorem placeless_accept (kind : TokenKind) : Placeless (accept kind) := by
  refine .bind (placeless_at? kind) fun b => ?_
  cases b with
  | true => exact .bind placeless_advance fun _ => .pure true
  | false => exact .pure false

theorem placeless_expect (kind : TokenKind) (place : String) : Placeless (expect kind place) := by
  refine .bind (placeless_at? kind) fun b => ?_
  cases b with
  | true => exact placeless_advance
  | false => exact placeless_fail _

theorem placeless_expectName (what : String) : Placeless (expectName what) := by
  refine .peek_bind fun kind text _ _ => ?_
  dsimp only
  split
  case isTrue => exact .bind placeless_advance fun _ => .pure text
  case isFalse => exact placeless_fail _

/-! ### Repetitions -/

section

variable {more : Token → Bool} {item : Parse α}

theorem placeless_many
    (hmore : ∀ kind text span span', more ⟨kind, text, span⟩ = more ⟨kind, text, span'⟩)
    (hitem : Placeless item) (n : Nat) : Placeless (many more item n) := by
  induction n with
  | zero => exact .pure []
  | succ n ih =>
    refine .peek_bind fun kind text span span' => ?_
    rw [hmore kind text span span']
    split
    case isTrue => exact .bind hitem fun x => .bind ih fun xs => .pure (x :: xs)
    case isFalse => exact .pure []

theorem placeless_manyWhile
    (hmore : ∀ kind text span span', more ⟨kind, text, span⟩ = more ⟨kind, text, span'⟩)
    (hitem : Placeless item) : Placeless (manyWhile more item) :=
  .length_bind fun n => placeless_many hmore hitem n

theorem placeless_commaSeparated (hitem : Placeless item) : Placeless (commaSeparated item) := by
  refine .bind hitem fun first => ?_
  refine .bind (placeless_manyWhile (fun _ _ _ _ => rfl) ?_) fun rest => .pure (first :: rest)
  exact .bind placeless_advance fun _ => hitem

end

/-! ### Expressions -/

section

variable {operand expression : Parse Expr}

theorem placeless_operation (level : List (TokenKind × BinaryOp)) (h : Placeless operand) :
    Placeless (operation level operand) := by
  refine .peek_bind fun kind _ _ _ => ?_
  dsimp only
  split
  case h_1 op _ => exact .bind placeless_advance fun _ => .bind h fun right => .pure (op, right)
  case h_2 => exact placeless_fail _

theorem placeless_binary (h : Placeless operand) (levels : List (List (TokenKind × BinaryOp))) :
    Placeless (binary operand levels) := by
  induction levels with
  | nil => exact h
  | cons level tighter ih =>
    refine .bind ih fun first => ?_
    exact .bind (placeless_manyWhile (fun _ _ _ _ => rfl) (placeless_operation level ih))
      fun rest => .pure _

variable (h : Placeless expression)

include h

theorem placeless_arguments : Placeless (arguments expression) := by
  refine .bind (placeless_at? _) fun b => ?_
  cases b with
  | true => exact .pure []
  | false => exact placeless_commaSeparated h

theorem placeless_indices : Placeless (indices expression) := by
  refine placeless_manyWhile (fun _ _ _ _ => rfl) ?_
  exact .bind placeless_advance fun _ => .bind h fun index =>
    .bind (placeless_expect _ _) fun _ => .pure index

theorem placeless_primary : Placeless (primary expression) := by
  refine .peek_bind fun kind text _ _ => ?_
  dsimp only
  split
  case h_1 =>
    split
    case isTrue => exact .bind placeless_advance fun _ => .pure _
    case isFalse => exact placeless_fail _
  case h_2 => exact .bind placeless_advance fun _ => .pure _
  case h_3 =>
    refine .bind placeless_advance fun _ => .bind (placeless_accept _) fun called => ?_
    cases called with
    | true =>
      exact .bind (placeless_arguments h) fun args => .bind (placeless_expect _ _) fun _ =>
        .pure _
    | false =>
      refine .bind (placeless_at? _) fun indexed => ?_
      cases indexed with
      | true => exact .bind (placeless_indices h) fun is => .pure _
      | false => exact .pure _
  case h_4 =>
    exact .bind placeless_advance fun _ => .bind h fun inner =>
      .bind (placeless_expect _ _) fun _ => .pure _
  case h_5 => exact placeless_fail _

theorem placeless_unary : Placeless (unary expression) :=
  .bind (placeless_manyWhile (fun _ _ _ _ => rfl) placeless_advance) fun _ =>
    .bind (placeless_primary h) fun _ => .pure _

theorem placeless_conditional : Placeless (conditional expression) := by
  refine .bind (placeless_binary (placeless_unary h) _) fun test =>
    .bind (placeless_accept _) fun b => ?_
  cases b with
  | true =>
    exact .bind h fun whenTrue => .bind (placeless_expect _ _) fun _ =>
      .bind h fun whenFalse => .pure _
  | false => exact .pure test

end

theorem placeless_expressionWithin (n : Nat) : Placeless (expressionWithin n) := by
  induction n with
  | zero => exact placeless_fail _
  | succ n ih => exact placeless_conditional ih

theorem placeless_expression : Placeless expression := .length_bind placeless_expressionWithin

/-! ### Instructions -/

/-- The fault behind a target is reported with the place of the target. -/
theorem sameRead_assignedTo (start start' : Span) (target : Expr) :
    SameRead (assignedTo start target) (assignedTo start' target) := by
  refine .peek_bind fun kind _ _ _ => ?_
  dsimp only
  split
  case isTrue =>
    exact .bind placeless_advance fun _ => .bind placeless_expression fun value =>
      .bind (placeless_expect _ _) fun _ => .pure _
  case isFalse => exact .failAt _ _ _

theorem placeless_labelOrAssignment : Placeless labelOrAssignment := by
  refine .peek_bind fun _ _ start start' => .bind (placeless_expectName _) fun name =>
    .bind (placeless_accept _) fun labelled => ?_
  cases labelled with
  | true => exact .pure _
  | false =>
    refine .bind (placeless_at? _) fun indexed => ?_
    cases indexed with
    | true =>
      exact .bind (placeless_indices placeless_expression) fun is =>
        sameRead_assignedTo start start' (.access name is)
    | false => exact sameRead_assignedTo start start' (.var name)

theorem placeless_instruction : Placeless instruction := by
  refine .peek_bind fun kind _ _ _ => ?_
  dsimp only
  split
  case h_1 =>
    exact .bind placeless_advance fun _ => .bind (placeless_expectName _) fun name =>
      .bind (placeless_expect _ _) fun _ => .pure _
  case h_2 =>
    exact .bind placeless_advance fun _ => .bind (placeless_expectName _) fun target =>
      .bind (placeless_expect _ _) fun _ => .pure _
  case h_3 =>
    exact .bind placeless_advance fun _ => .bind placeless_expression fun condition =>
      .bind (placeless_expect _ _) fun _ => .bind (placeless_expectName _) fun target =>
      .bind (placeless_expect _ _) fun _ => .pure _
  case h_4 =>
    exact .bind placeless_advance fun _ => .bind (placeless_expectName _) fun name =>
      .bind (placeless_expect _ _) fun _ =>
      .bind (placeless_arguments placeless_expression) fun args =>
      .bind (placeless_expect _ _) fun _ => .bind (placeless_expect _ _) fun _ =>
      .pure _
  case h_5 => exact placeless_labelOrAssignment
  case h_6 => exact placeless_fail _

theorem placeless_block : Placeless block :=
  .bind (placeless_expect _ _) fun _ =>
    .bind (placeless_manyWhile (fun _ _ _ _ => rfl) placeless_instruction) fun body =>
    .bind (placeless_expect _ _) fun _ => .pure body

/-! ### Items -/

theorem placeless_loopItem : Placeless loopItem := by
  refine .bind (placeless_expect _ _) fun _ => .bind (placeless_expectName _) fun counter =>
    .bind (placeless_accept _) fun bounded => ?_
  cases bounded with
  | true =>
    exact .bind placeless_expression fun lower => .bind (placeless_expect _ _) fun _ =>
      .bind placeless_expression fun upper => .bind (.pure (some (lower, upper))) fun _ =>
      .bind placeless_block fun _ => .pure _
  | false => exact .bind (.pure none) fun _ => .bind placeless_block fun _ => .pure _

theorem placeless_procedureItem : Placeless procedureItem := by
  -- What follows the parameters is the same in both cases.
  have hrest (name : String) (parameters : List String) : Placeless (do
      expect .rightParen " after parameters"
      let body ← block
      pure ⟨name, parameters, body⟩ : Parse Procedure) :=
    .bind (placeless_expect _ _) fun _ => .bind placeless_block fun body => .pure _
  refine .bind (placeless_expect _ _) fun _ => .bind (placeless_expectName _) fun name =>
    .bind (placeless_expect _ _) fun _ => .bind (placeless_at? _) fun b => ?_
  cases b with
  | true => exact hrest name []
  | false =>
    exact .bind (placeless_commaSeparated (placeless_expectName _)) fun parameters =>
      hrest name parameters

theorem placeless_word (words : List (String × α)) (cause : ParseCause) :
    Placeless (word words cause) := by
  refine .peek_bind fun kind text _ _ => ?_
  dsimp only [Token.isWord]
  split
  case h_1 w _ => exact .bind placeless_advance fun _ => .pure w.2
  case h_2 => exact placeless_fail _

theorem placeless_rebinding : Placeless rebinding :=
  .bind (placeless_word _ _) fun _ => .bind (placeless_expect _ _) fun _ =>
    .bind (placeless_word _ _) fun _ => .bind (placeless_expect _ _) fun _ =>
    .pure _

theorem placeless_symbolItem : Placeless symbolItem := by
  refine .bind (placeless_expect _ _) fun _ => .bind (placeless_expectName _) fun name =>
    .bind (placeless_expect _ _) fun _ => .bind (placeless_word _ _) fun visibility =>
    .bind (placeless_expectName _) fun element =>
    .bind (placeless_manyWhile (fun _ _ _ _ => rfl) ?_) fun dimensions =>
    .bind (placeless_manyWhile (fun _ _ _ _ => rfl) placeless_rebinding) fun rebindings =>
    .bind (placeless_expect _ _) fun _ => .pure _
  exact .bind placeless_advance fun _ => placeless_expect _ _

theorem placeless_item (items : Items) : Placeless (item items) := by
  refine .peek_bind fun kind _ span span' => ?_
  dsimp only
  split
  case h_1 =>
    refine .bind placeless_symbolItem fun s => ?_
    split
    case isTrue => exact .failAt span span' _
    case isFalse => exact .pure _
  case h_2 =>
    refine .bind placeless_procedureItem fun f => ?_
    split
    case isTrue => exact .failAt span span' _
    case isFalse => exact .pure _
  case h_3 =>
    refine .bind placeless_loopItem fun l => ?_
    split
    case isTrue => exact .failAt span span' _
    case isFalse => exact .pure _
  case h_4 => exact placeless_fail _

theorem placeless_itemsWithin (n : Nat) (items : Items) : Placeless (itemsWithin n items) := by
  induction n generalizing items with
  | zero => exact .pure items
  | succ n ih =>
    refine .bind (placeless_at? _) fun b => ?_
    cases b with
    | true => exact .pure items
    | false => exact .bind (placeless_item items) fun items' => ih items'

/-- **The parser does not look at places.** -/
theorem placeless_program : Placeless program := by
  refine .length_bind fun n => .bind (placeless_itemsWithin n _) fun items => ?_
  split
  case h_1 => exact placeless_fail _
  case h_2 => exact .pure _

end ParLoop.Listing
