import ParLoop.Listing.Token
import ParLoop.Text.Characters

/-!
# From text to tokens

A text is cut into pieces (`pieces`): a gap of white space and comments, then the text of a token or
of something that is none. The places of the tokens follow from the pieces (`place`). Scanning goes
on after a fault, behind the characters that made it.
-/

namespace ParLoop.Listing

open ParLoop.Text

/-- Whether a character may begin a name. -/
def isNameStart (c : Char) : Bool := isXidStart c || c == '_' || c == '$'

/-- Whether a character may go on in a name. -/
def isNamePart (c : Char) : Bool := isXidContinue c || c == '$'

/-! ### Gaps -/

/-- What a gap is in the middle of. -/
inductive GapState where
  | blank
  | lineComment
  /-- A block comment whose star is still to come. -/
  | opening
  | blockComment
  /-- A block comment right behind a star. -/
  | star

/-- The state of a gap behind a character, or nothing if the gap ends before it. The second argument
is the character after it. -/
def GapState.next (c : Char) (ahead : Option Char) : GapState → Option GapState
  | .blank =>
    if isBlank c then some .blank
    else if c = '/' ∧ ahead = some '/' then some .lineComment
    else if c = '/' ∧ ahead = some '*' then some .opening
    else none
  | .lineComment => some (if c = '\n' then .blank else .lineComment)
  | .opening => some .blockComment
  | .blockComment => some (if c = '*' then .star else .blockComment)
  | .star => some (if c = '/' then .blank else if c = '*' then .star else .blockComment)

/-- Cuts off the rest of a gap. -/
def splitGap (state : GapState) : List Char → List Char × List Char
  | [] => ([], [])
  | c :: cs =>
    match state.next c cs.head? with
    | none => ([], c :: cs)
    | some state' =>
      let (gap, rest) := splitGap state' cs
      (c :: gap, rest)

theorem splitGap_append (state : GapState) (cs : List Char) :
    (splitGap state cs).1 ++ (splitGap state cs).2 = cs := by
  induction cs generalizing state with
  | nil => rfl
  | cons c cs ih =>
    rw [splitGap]
    split
    · rfl
    · simp [ih]

theorem length_splitGap_le (state : GapState) (cs : List Char) :
    (splitGap state cs).2.length ≤ cs.length := by
  have h := congrArg List.length (splitGap_append state cs)
  simp at h
  omega

/-! ### Lexemes -/

/-- Why some characters are no token. -/
inductive ScanCause where
  | unexpected (c : Char)
  | loneBang
  | exponentWithoutDigits
  | letterAfterNumber
deriving DecidableEq, Repr

/-- The classes of scanning faults. -/
inductive ScanFaultKind where
  | unexpectedChar
  | invalidNumber
deriving DecidableEq, Repr

/-- The class of a fault. -/
def ScanCause.kind : ScanCause → ScanFaultKind
  | .unexpected _ | .loneBang => .unexpectedChar
  | .exponentWithoutDigits | .letterAfterNumber => .invalidNumber

/-- The wording of a fault. -/
def ScanCause.message : ScanCause → String
  | .unexpected c => "Unexpected character: '" ++ c.toString ++ "'"
  | .loneBang => "Expected '!=', found single '!'"
  | .exponentWithoutDigits => "Invalid floating-point exponent"
  | .letterAfterNumber => "Invalid number literal"

/-- The fraction of a number: a point and digits, or nothing. -/
def fractionOf : List Char → List Char
  | '.' :: d :: cs => if d.isDigit then '.' :: (d :: cs).takeWhile Char.isDigit else []
  | _ => []

/-- The sign of an exponent, if there is one. -/
def signOf : List Char → List Char
  | c :: _ => if c = '+' ∨ c = '-' then [c] else []
  | [] => []

/-- What follows the whole part and the fraction of a number. -/
inductive Exponent where
  | absent
  | present (text : List Char)
  /-- The mark and the sign stand there, but no digit. -/
  | broken (text : List Char)

/-- The exponent of a number. -/
def Exponent.of : List Char → Exponent
  | e :: cs =>
    if e = 'e' ∨ e = 'E' then
      let sign := signOf cs
      let digits := (cs.drop sign.length).takeWhile Char.isDigit
      if digits.isEmpty then .broken (e :: sign) else .present (e :: (sign ++ digits))
    else .absent
  | [] => .absent

/-- A number: its text, and whether it is one. A letter right behind a number spoils it. -/
def scanNumber (cs : List Char) : Except ScanCause TokenKind × List Char :=
  let whole := cs.takeWhile Char.isDigit
  let fraction := fractionOf (cs.drop whole.length)
  let mantissa := whole ++ fraction
  let finish (kind : TokenKind) (text : List Char) : Except ScanCause TokenKind × List Char :=
    match cs.drop text.length with
    | c :: _ => if isNameStart c then (.error .letterAfterNumber, text ++ [c]) else (.ok kind, text)
    | [] => (.ok kind, text)
  match Exponent.of (cs.drop mantissa.length) with
  | .absent => finish (if fraction.isEmpty then .integer else .float) mantissa
  | .present exponent => finish .float (mantissa ++ exponent)
  | .broken exponent => (.error .exponentWithoutDigits, mantissa ++ exponent)

/-- The token or fault at the beginning of a text, and its characters. -/
def scanLexeme (c : Char) (cs : List Char) : Except ScanCause TokenKind × List Char :=
  match TokenKind.symbols.find? fun k => k.name.toList.isPrefixOf (c :: cs) with
  | some k => (.ok k, k.name.toList)
  | none =>
    if c = '!' then (.error .loneBang, [c])
    else if c.isDigit then scanNumber (c :: cs)
    else if isNameStart c then
      let word := c :: cs.takeWhile isNamePart
      (.ok (.ofWord word), word)
    else (.error (.unexpected c), [c])

/-! ### Pieces and items -/

/-- A gap and the token or fault behind it. -/
structure Piece where
  gap : List Char
  text : List Char
  outcome : Except ScanCause TokenKind

/-- A text as a sequence of pieces. The last one is the end of the text. -/
def pieces (cs : List Char) : List Piece :=
  let cut := splitGap .blank cs
  match _behind : cut.2 with
  | [] => [⟨cut.1, [], .ok .endOfText⟩]
  | c :: rest =>
    let (outcome, text) := scanLexeme c rest
    ⟨cut.1, text, outcome⟩ :: pieces (rest.drop (text.length - 1))
termination_by cs.length
decreasing_by
  have hcut : cut.2.length ≤ cs.length := length_splitGap_le .blank cs
  simp only [_behind, List.length_cons] at hcut
  simp only [List.length_drop]
  omega

/-- A fault with its place. -/
structure ScanError where
  cause : ScanCause
  span : Span
deriving DecidableEq, Repr

/-- A fault in words. -/
def ScanError.text (e : ScanError) : String := e.cause.message ++ " at " ++ e.span.text

/-- The tokens and faults of some pieces, with their places counted from a position on. -/
def place (p : Position) : List Piece → List (Except ScanError Token)
  | [] => []
  | q :: qs =>
    let span : Span := ⟨p.after q.gap, (p.after q.gap).after q.text⟩
    (match q.outcome with
      | .ok kind => .ok ⟨kind, String.ofList q.text, span⟩
      | .error cause => .error ⟨cause, span⟩) :: place span.stop qs

/-- The tokens and faults of a text. -/
def scan (text : String) : List (Except ScanError Token) := place .start (pieces text.toList)

/-- The tokens of a text without faults, or its first fault. -/
def tokenize (text : String) : Except ScanError (List Token) := (scan text).mapM id

end ParLoop.Listing
