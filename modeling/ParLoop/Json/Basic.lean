import ParLoop.Double.Text

/-!
# JSON texts

A `Json` value keeps the order of its members. It is written on one line (`Json.compact`) or with
one member or element a line (`Json.pretty`).
-/

namespace ParLoop

/-- A JSON value. -/
inductive Json where
  | null
  | bool (value : Bool)
  | int (value : Int)
  | double (value : Double)
  | str (value : String)
  | arr (elements : List Json)
  | obj (members : List (String × Json))

namespace Json

/-- A hexadecimal digit. -/
def hexDigit (n : Nat) : Char := "0123456789abcdef".toList.getD n '0'

/-- A character inside a quoted string. Quotes, backslashes and control characters are escaped. -/
def escapeChar (c : Char) : List Char :=
  if c = '"' then ['\\', '"']
  else if c = '\\' then ['\\', '\\']
  else if c = '\x08' then ['\\', 'b']
  else if c = '\x0c' then ['\\', 'f']
  else if c = '\n' then ['\\', 'n']
  else if c = '\r' then ['\\', 'r']
  else if c = '\t' then ['\\', 't']
  else if c.toNat < 32 then
    ['\\', 'u', '0', '0', hexDigit (c.toNat / 16), hexDigit (c.toNat % 16)]
  else [c]

/-- A quoted string. -/
def quote (s : String) : String :=
  "\"" ++ String.ofList (s.toList.flatMap escapeChar) ++ "\""

/-- Numbers are written in full from 0.00001 up to 16 digits before the point. -/
def numerals : NumeralStyle := ⟨-5, 15, "+", .even⟩

/-- A number; the infinities have no JSON numeral. -/
def number (d : Double) : String := if d.isFinite then d.text numerals else "null"

mutual

/-- A value on one line. -/
def compact : Json → String
  | .null => "null"
  | .bool b => if b then "true" else "false"
  | .int v => toString v
  | .double d => number d
  | .str s => quote s
  | .arr es => "[" ++ ",".intercalate (compactList es) ++ "]"
  | .obj ms => "\x7b" ++ ",".intercalate (compactMembers ms) ++ "\x7d"

/-- The elements of an array, each on one line. -/
def compactList : List Json → List String
  | [] => []
  | e :: es => compact e :: compactList es

/-- The members of an object, each on one line. -/
def compactMembers : List (String × Json) → List String
  | [] => []
  | (k, v) :: ms => (quote k ++ ":" ++ compact v) :: compactMembers ms

end

/-- Items between brackets, one a line and indented by two blanks more than the brackets. -/
def enclose (opening closing : String) (indent : Nat) (items : List String) : String :=
  if items.isEmpty then opening ++ closing
  else
    let line (n : Nat) := "\n" ++ String.ofList (List.replicate n ' ')
    opening ++ line (indent + 2) ++ ("," ++ line (indent + 2)).intercalate items ++
      line indent ++ closing

mutual

/-- A value with one element or member a line, at an indentation. -/
def prettyAt (indent : Nat) : Json → String
  | .null => "null"
  | .bool b => if b then "true" else "false"
  | .int v => toString v
  | .double d => number d
  | .str s => quote s
  | .arr es => enclose "[" "]" indent (prettyList indent es)
  | .obj ms => enclose "\x7b" "\x7d" indent (prettyMembers indent ms)

/-- The elements of an array at an indentation. -/
def prettyList (indent : Nat) : List Json → List String
  | [] => []
  | e :: es => prettyAt (indent + 2) e :: prettyList indent es

/-- The members of an object at an indentation. -/
def prettyMembers (indent : Nat) : List (String × Json) → List String
  | [] => []
  | (k, v) :: ms => (quote k ++ ": " ++ prettyAt (indent + 2) v) :: prettyMembers indent ms

end

/-- A value with one element or member a line. -/
def pretty (v : Json) : String := prettyAt 0 v

/-- A value or null. -/
def ofOption {α : Type} (f : α → Json) : Option α → Json
  | none => .null
  | some a => f a

/-- An object with one member, which names a variant. -/
def tagged (tag : String) (v : Json) : Json := .obj [(tag, v)]

end Json

end ParLoop
