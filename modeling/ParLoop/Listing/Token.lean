import ParLoop.Span

/-!
# Tokens of listings

A listing is read as a sequence of tokens. All kinds but three have one spelling, which
`TokenKind.name` gives; numbers and identifiers have their own text.
-/

namespace ParLoop.Listing

/-- The kind of a token. -/
inductive TokenKind where
  | integer
  | float
  | identifier
  | loopWord
  | procWord
  | symbolWord
  | varWord
  | gotoWord
  | ifWord
  | callWord
  | toWord
  | plus
  | minus
  | star
  | slash
  | percent
  | equalEqual
  | bangEqual
  | less
  | lessEqual
  | greater
  | greaterEqual
  | amp
  | ampAmp
  | pipe
  | pipePipe
  | caret
  | shiftLeft
  | shiftRight
  | equal
  | question
  | leftParen
  | rightParen
  | leftBracket
  | rightBracket
  | leftBrace
  | rightBrace
  | comma
  | semicolon
  | colon
  | endOfText
deriving DecidableEq, Repr

namespace TokenKind

/-- How a kind of token is called in messages: its spelling, if it has only one. -/
def name : TokenKind → String
  | integer => "integer"
  | float => "float"
  | identifier => "identifier"
  | loopWord => "loop"
  | procWord => "proc"
  | symbolWord => "symbol"
  | varWord => "var"
  | gotoWord => "goto"
  | ifWord => "if"
  | callWord => "call"
  | toWord => "to"
  | plus => "+"
  | minus => "-"
  | star => "*"
  | slash => "/"
  | percent => "%"
  | equalEqual => "=="
  | bangEqual => "!="
  | less => "<"
  | lessEqual => "<="
  | greater => ">"
  | greaterEqual => ">="
  | amp => "&"
  | ampAmp => "&&"
  | pipe => "|"
  | pipePipe => "||"
  | caret => "^"
  | shiftLeft => "<<"
  | shiftRight => ">>"
  | equal => "="
  | question => "?"
  | leftParen => "("
  | rightParen => ")"
  | leftBracket => "["
  | rightBracket => "]"
  | leftBrace => "\x7b"
  | rightBrace => "\x7d"
  | comma => ","
  | semicolon => ";"
  | colon => ":"
  | endOfText => "end of file"

/-- The words that cannot be names. -/
def keywords : List TokenKind :=
  [loopWord, procWord, symbolWord, varWord, gotoWord, ifWord, callWord, toWord]

/-- The comparison operators. -/
def comparisons : List TokenKind := [equalEqual, bangEqual, less, lessEqual, greater, greaterEqual]

/-- The tokens made of other characters than letters and digits, longer ones first. -/
def symbols : List TokenKind :=
  [equalEqual, bangEqual, ampAmp, pipePipe, shiftLeft, lessEqual, shiftRight, greaterEqual, plus,
    minus, star, slash, percent, less, greater, amp, pipe, caret, equal, question, leftParen,
    rightParen, leftBracket, rightBracket, leftBrace, rightBrace, comma, semicolon, colon]

/-- Whether a kind is a keyword. -/
def isKeyword (k : TokenKind) : Bool := keywords.contains k

/-- Whether a kind is a comparison operator. -/
def isComparison (k : TokenKind) : Bool := comparisons.contains k

/-- The kind of a word: a keyword or an identifier. -/
def ofWord (word : List Char) : TokenKind :=
  (keywords.find? fun k => k.name.toList == word).getD identifier

end TokenKind

/-- A token with its text and its place. -/
structure Token where
  kind : TokenKind
  text : String
  span : Span
deriving DecidableEq, Repr

/-- Whether a token is a given word without fixed meaning. -/
def Token.isWord (t : Token) (word : String) : Bool := t.kind == .identifier && t.text == word

/-- What a message says was found. -/
def Token.found (t : Token) : String :=
  if t.kind = .endOfText then TokenKind.endOfText.name else t.text

end ParLoop.Listing
