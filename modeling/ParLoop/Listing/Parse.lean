import ParLoop.Listing.Scan
import ParLoop.Program

/-!
# From tokens to programs

A listing holds one `loop` item and any number of `proc` and `symbol` items, in any order:

```text
symbol a: param double[] init(fresh);
proc scale(x) { $result_scale = x * 2; }
loop i = 0 to n {
  var t;
  t = scale(i);
  a[t] = 0;
}
```

The parser looks at one token at a time. A scanning fault is reported when the faulty characters
become the current token. Repetitions are bounded by the number of tokens left, and nested
expressions by the same number, since each nesting takes a token of its own.
-/

namespace ParLoop.Listing

/-! ### Faults -/

/-- Why a token cannot stand where it stands. -/
inductive ParseCause where
  /-- Another token must stand at a given place. -/
  | token (kind : TokenKind) (place : String)
  /-- A name must stand there. -/
  | name (what : String)
  | item
  | visibility
  | rebindingKind
  | rebindingValue
  | instruction
  | expression
  | integerRange
  | target
  | secondLoop
  | missingLoop
  | duplicateSymbol (name : String)
  | duplicateProcedure (name : String)
deriving DecidableEq, Repr

/-- The classes of parsing faults. -/
inductive ParseFaultKind where
  | unexpectedToken
  | expectedExpression
  | invalidTarget
  | invalidLoop
  | duplicateDefinition
deriving DecidableEq, Repr

/-- The class of a fault. -/
def ParseCause.kind : ParseCause → ParseFaultKind
  | .token .. | .name _ | .item | .visibility | .rebindingKind | .rebindingValue | .instruction =>
    .unexpectedToken
  | .expression | .integerRange => .expectedExpression
  | .target => .invalidTarget
  | .secondLoop | .missingLoop => .invalidLoop
  | .duplicateSymbol _ | .duplicateProcedure _ => .duplicateDefinition

/-- The wording of a fault. -/
def ParseCause.message : ParseCause → String
  | .token kind place =>
    "Expected '" ++ kind.name ++ "'" ++ place ++ ": expected '" ++ kind.name ++ "'"
  | .name what => "Expected " ++ what
  | .item => "Expected 'loop', 'proc' or 'symbol'"
  | .visibility => "Expected visibility 'local', 'param', 'private' or 'public'"
  | .rebindingKind => "Expected rebinding 'init', 'assign' or 'refarg'"
  | .rebindingValue => "Expected rebinding value 'fresh', 'null' or 'ref'"
  | .instruction => "Expected instruction"
  | .expression => "Expected expression"
  | .integerRange => "Integer literal out of range"
  | .target => "Expected '=' or ':' after target"
  | .secondLoop => "only one loop is allowed"
  | .missingLoop => "missing 'loop' item"
  | .duplicateSymbol x => "symbol '" ++ x ++ "' is declared twice"
  | .duplicateProcedure f => "procedure '" ++ f ++ "' is defined twice"

/-- A parsing fault with its place and what stands there. -/
structure ParseError where
  cause : ParseCause
  span : Span
  found : String
deriving DecidableEq, Repr

/-- A parsing fault in words. -/
def ParseError.text (e : ParseError) : String :=
  e.cause.message ++ " at " ++ e.span.text ++ " (found: " ++ e.found ++ ")"

/-- A fault of a listing. -/
inductive ReadError where
  | scan (error : ScanError)
  | parse (error : ParseError)
deriving DecidableEq, Repr

/-- A fault of a listing in words. -/
def ReadError.text : ReadError → String
  | .scan e => e.text
  | .parse e => e.text

/-! ### Looking at tokens -/

/-- A computation that reads tokens. -/
abbrev Parse := StateT (List (Except ScanError Token)) (Except ReadError)

/-- The current token. -/
def peek : Parse Token := do
  match ← get with
  | .ok t :: _ => pure t
  | .error e :: _ => throw (.scan e)
  | [] => pure ⟨.endOfText, "", ⟨.start, .start⟩⟩

/-- Goes on to the next token. -/
def advance : Parse Unit := modify List.tail

/-- Reports a fault at a place. -/
def failAt {α : Type} (span : Span) (cause : ParseCause) : Parse α := do
  throw (.parse ⟨cause, span, (← peek).found⟩)

/-- Reports a fault at the current token. -/
def fail {α : Type} (cause : ParseCause) : Parse α := do failAt (← peek).span cause

/-- Whether the current token is of a kind. -/
def at? (kind : TokenKind) : Parse Bool := return (← peek).kind == kind

/-- Takes a token of a kind if it is the current one. -/
def accept (kind : TokenKind) : Parse Bool := do
  if ← at? kind then
    advance
    pure true
  else
    pure false

/-- Takes a token that must be of a kind. -/
def expect (kind : TokenKind) (place : String) : Parse Unit := do
  if ← at? kind then advance else fail (.token kind place)

/-- Takes a name. -/
def expectName (what : String) : Parse String := do
  let t ← peek
  if t.kind = .identifier then
    advance
    pure t.text
  else
    fail (.name what)

/-- Reads at most a number of items, as long as the current token passes a test. -/
def many {α : Type} (more : Token → Bool) (item : Parse α) : Nat → Parse (List α)
  | 0 => pure []
  | n + 1 => do
    if more (← peek) then
      let x ← item
      let xs ← many more item n
      pure (x :: xs)
    else
      pure []

/-- Reads items as long as the current token passes a test. -/
def manyWhile {α : Type} (more : Token → Bool) (item : Parse α) : Parse (List α) := do
  many more item (← get).length

/-- Reads items with commas between them. -/
def commaSeparated {α : Type} (item : Parse α) : Parse (List α) := do
  let first ← item
  let rest ← manyWhile (·.kind == .comma) (do advance; item)
  pure (first :: rest)

/-! ### Expressions -/

/-- The number that decimal digits denote. -/
def digitsValue (digits : List Char) : Nat :=
  digits.foldl (fun n c => 10 * n + (c.toNat - '0'.toNat)) 0

/-- The decimal that the text of a floating-point token denotes. -/
def decimalValue (text : List Char) : Decimal :=
  let whole := text.takeWhile Char.isDigit
  let fraction := (fractionOf (text.drop whole.length)).drop 1
  let coefficient := digitsValue (whole ++ fraction)
  let exponent : Int :=
    match (text.dropWhile fun c => c ≠ 'e' ∧ c ≠ 'E').drop 1 with
    | '-' :: ds => -digitsValue ds
    | '+' :: ds => digitsValue ds
    | ds => digitsValue ds
  ⟨coefficient, exponent - fraction.length⟩

/-- The largest integer literal. -/
def maxInteger : Nat := 9223372036854775807

/-- The negation of an operand. The negative of a literal is a literal. -/
def negated : Expr → Expr
  | .int v => .int (-v)
  | .double d => .double d.neg
  | e => .neg e

/-- The binary operators by level, the loosest level first. -/
def operatorLevels : List (List (TokenKind × BinaryOp)) := [
  [(.pipePipe, .generic "||")],
  [(.ampAmp, .generic "&&")],
  [(.pipe, .generic "|")],
  [(.caret, .generic "^")],
  [(.amp, .generic "&")],
  [(.equalEqual, .compare .eq), (.bangEqual, .compare .ne)],
  [(.less, .compare .lt), (.lessEqual, .compare .le), (.greater, .compare .gt),
    (.greaterEqual, .compare .ge)],
  [(.shiftLeft, .generic "<<"), (.shiftRight, .generic ">>")],
  [(.plus, .add), (.minus, .subtract)],
  [(.star, .multiply), (.slash, .divide), (.percent, .modulo)]]

/-- An operator of one level and its right operand. -/
def operation (level : List (TokenKind × BinaryOp)) (operand : Parse Expr) :
    Parse (BinaryOp × Expr) := do
  match level.lookup (← peek).kind with
  | some op =>
    advance
    let right ← operand
    pure (op, right)
  | none => fail .expression

/-- Operands joined by the operators of some levels, to the left within a level. -/
def binary (operand : Parse Expr) : List (List (TokenKind × BinaryOp)) → Parse Expr
  | [] => operand
  | level :: tighter => do
    let first ← binary operand tighter
    let rest ← manyWhile (fun t => (level.lookup t.kind).isSome)
      (operation level (binary operand tighter))
    pure (rest.foldl (fun left r => .binary r.1 left r.2) first)

/-- The arguments of a call, up to the closing parenthesis. -/
def arguments (expression : Parse Expr) : Parse (List Expr) := do
  if ← at? .rightParen then pure [] else commaSeparated expression

/-- The indices of an element access. -/
def indices (expression : Parse Expr) : Parse (List Expr) :=
  manyWhile (·.kind == .leftBracket) do
    advance
    let index ← expression
    expect .rightBracket ""
    pure index

/-- A literal, a name, a call, an element access or an expression in parentheses. -/
def primary (expression : Parse Expr) : Parse Expr := do
  let t ← peek
  match t.kind with
  | .integer =>
    let value := digitsValue t.text.toList
    if value ≤ maxInteger then
      advance
      pure (.int value)
    else
      fail .integerRange
  | .float =>
    advance
    pure (.double (.ofDecimal false (decimalValue t.text.toList)))
  | .identifier =>
    advance
    if ← accept .leftParen then
      let args ← arguments expression
      expect .rightParen " after arguments"
      pure (.call t.text args)
    else if ← at? .leftBracket then
      let is ← indices expression
      pure (.access t.text is)
    else
      pure (.var t.text)
  | .leftParen =>
    advance
    let inner ← expression
    expect .rightParen ""
    pure (.paren inner)
  | _ => fail .expression

/-- An operand behind any number of minus signs. -/
def unary (expression : Parse Expr) : Parse Expr := do
  let signs ← manyWhile (·.kind == .minus) advance
  let operand ← primary expression
  pure (signs.foldl (fun e _ => negated e) operand)

/-- An expression, given how the expressions inside of it are read. -/
def conditional (expression : Parse Expr) : Parse Expr := do
  let test ← binary (unary expression) operatorLevels
  if ← accept .question then
    let whenTrue ← expression
    expect .colon " in conditional expression"
    let whenFalse ← expression
    pure (.cond test whenTrue whenFalse)
  else
    pure test

/-- An expression with at most a number of nested levels. -/
def expressionWithin : Nat → Parse Expr
  | 0 => fail .expression
  | n + 1 => conditional (expressionWithin n)

/-- An expression. -/
def expression : Parse Expr := do expressionWithin (← get).length

/-! ### Instructions -/

/-- A label or an assignment. -/
def labelOrAssignment : Parse Instr := do
  let start := (← peek).span
  let name ← expectName "identifier"
  if ← accept .colon then
    pure (.label name)
  else
    let target ←
      if ← at? .leftBracket then
        let is ← indices expression
        pure (Expr.access name is)
      else
        pure (Expr.var name)
    let t ← peek
    if t.kind = .equal then
      advance
      let value ← expression
      expect .semicolon " after assignment"
      pure (.assign target value)
    else
      failAt (start.merge t.span) .target

/-- An instruction. -/
def instruction : Parse Instr := do
  match (← peek).kind with
  | .varWord =>
    advance
    let name ← expectName "variable name"
    expect .semicolon " after declaration"
    pure (.declare name)
  | .gotoWord =>
    advance
    let target ← expectName "label after 'goto'"
    expect .semicolon " after jump"
    pure (.jump target)
  | .ifWord =>
    advance
    let condition ← expression
    expect .gotoWord " after condition"
    let target ← expectName "label after 'goto'"
    expect .semicolon " after jump"
    pure (.branch condition target)
  | .callWord =>
    advance
    let name ← expectName "procedure name after 'call'"
    expect .leftParen " after procedure name"
    let args ← arguments expression
    expect .rightParen " after arguments"
    expect .semicolon " after call"
    pure (.call name args)
  | .identifier => labelOrAssignment
  | _ => fail .instruction

/-- Instructions in braces. -/
def block : Parse (List Instr) := do
  expect .leftBrace ""
  let body ← manyWhile (fun t => t.kind != .rightBrace && t.kind != .endOfText) instruction
  expect .rightBrace ""
  pure body

/-! ### Items -/

/-- The loop of a program. -/
structure LoopItem where
  counter : String
  bounds : Option (Expr × Expr)
  body : List Instr

/-- A loop, with or without bounds. -/
def loopItem : Parse LoopItem := do
  expect .loopWord ""
  let counter ← expectName "induction variable"
  let bounds ←
    if ← accept .equal then
      let lower ← expression
      expect .toWord " in loop header"
      let upper ← expression
      pure (some (lower, upper))
    else
      pure none
  let body ← block
  pure ⟨counter, bounds, body⟩

/-- A procedure. -/
def procedureItem : Parse Procedure := do
  expect .procWord ""
  let name ← expectName "procedure name"
  expect .leftParen " after procedure name"
  let parameters ←
    if ← at? .rightParen then pure [] else commaSeparated (expectName "parameter name")
  expect .rightParen " after parameters"
  let body ← block
  pure ⟨name, parameters, body⟩

/-- Takes one of several words without fixed meaning. -/
def word {α : Type} (words : List (String × α)) (cause : ParseCause) : Parse α := do
  let t ← peek
  match words.find? fun w => t.isWord w.1 with
  | some w =>
    advance
    pure w.2
  | none => fail cause

/-- The words for visibilities. -/
def visibilityWords : List (String × Visibility) :=
  [("local", .localVariable), ("param", .parameter), ("private", .privateMember),
    ("public", .publicMember)]

/-- The words for kinds of rebinding. -/
def rebindingKindWords : List (String × RebindingKind) :=
  [("init", .initializer), ("assign", .assignment), ("refarg", .refArgument)]

/-- The words for what a symbol is bound to. -/
def rebindingValueWords : List (String × RebindingValue) :=
  [("fresh", .fresh), ("null", .null), ("ref", .reference)]

/-- A place where a symbol is rebound. -/
def rebinding : Parse Rebinding := do
  let kind ← word rebindingKindWords .rebindingKind
  expect .leftParen " after rebinding kind"
  let value ← word rebindingValueWords .rebindingValue
  expect .rightParen " after rebinding value"
  pure ⟨kind, value⟩

/-- A symbol. -/
def symbolItem : Parse Symbol := do
  expect .symbolWord ""
  let name ← expectName "symbol name"
  expect .colon " after symbol name"
  let visibility ← word visibilityWords .visibility
  let element ← expectName "element type"
  let dimensions ← manyWhile (·.kind == .leftBracket) do
    advance
    expect .rightBracket " in array type"
  let rebindings ← manyWhile (·.kind == .identifier) rebinding
  expect .semicolon " after symbol"
  pure ⟨name, visibility, .named element, dimensions.length, rebindings⟩

/-- The items read so far. -/
structure Items where
  loop : Option LoopItem
  procedures : NameMap Procedure
  symbols : NameMap Symbol

/-- Reads one item more. -/
def item (items : Items) : Parse Items := do
  let t ← peek
  match t.kind with
  | .symbolWord =>
    let s ← symbolItem
    if items.symbols.contains s.name then failAt t.span (.duplicateSymbol s.name)
    else pure { items with symbols := items.symbols.insert s.name s }
  | .procWord =>
    let f ← procedureItem
    if items.procedures.contains f.name then failAt t.span (.duplicateProcedure f.name)
    else pure { items with procedures := items.procedures.insert f.name f }
  | .loopWord =>
    let l ← loopItem
    if items.loop.isSome then failAt t.span .secondLoop
    else pure { items with loop := some l }
  | _ => fail .item

/-- Reads at most a number of items, up to the end of the text. -/
def itemsWithin : Nat → Items → Parse Items
  | 0, items => pure items
  | n + 1, items => do
    if ← at? .endOfText then pure items
    else
      let items' ← item items
      itemsWithin n items'

/-- A whole listing. -/
def program : Parse Program := do
  let items ← itemsWithin (← get).length ⟨none, ∅, ∅⟩
  match items.loop with
  | none => fail .missingLoop
  | some l =>
    pure {
      counter := l.counter
      lower := l.bounds.map (·.1)
      upper := l.bounds.map (·.2)
      body := l.body
      procedures := items.procedures
      symbols := items.symbols }

/-- The program that a listing holds, or its first fault. -/
def parse (text : String) : Except ReadError Program := (program.run (scan text)).map (·.1)

end ParLoop.Listing
