/-!
# Places in a text

A `Position` is a line and a column, both counted from 1; a `Span` lies between two positions.
Columns count characters, and a newline alone ends a line.
-/

namespace ParLoop

/-- A line and a column, counted from 1. -/
structure Position where
  line : Nat
  column : Nat
deriving DecidableEq, Repr

namespace Position

/-- The place of the first character of a text. -/
def start : Position := ⟨1, 1⟩

/-- The place after one character. -/
def next (p : Position) (c : Char) : Position :=
  if c = '\n' then ⟨p.line + 1, 1⟩ else ⟨p.line, p.column + 1⟩

/-- The place after a piece of text. -/
def after (p : Position) (cs : List Char) : Position := cs.foldl next p

/-- Whether a place is not after another one. -/
def le (p q : Position) : Bool := p.line < q.line || (p.line == q.line && p.column ≤ q.column)

/-- A position as `line:column`. -/
def text (p : Position) : String := toString p.line ++ ":" ++ toString p.column

@[simp] theorem after_nil (p : Position) : p.after [] = p := rfl

@[simp] theorem after_cons (p : Position) (c : Char) (cs : List Char) :
    p.after (c :: cs) = (p.next c).after cs := rfl

@[simp] theorem after_append (p : Position) (cs ds : List Char) :
    p.after (cs ++ ds) = (p.after cs).after ds := List.foldl_append

end Position

/-- The part of a text between two positions. -/
structure Span where
  start : Position
  stop : Position
deriving DecidableEq, Repr

namespace Span

/-- The smallest span that covers two spans. -/
def merge (s t : Span) : Span where
  start := if s.start.le t.start then s.start else t.start
  stop := if t.stop.le s.stop then s.stop else t.stop

/-- A span as `line:column-column`, or `line:column-line:column` when it covers several lines. -/
def text (s : Span) : String :=
  if s.start.line = s.stop.line then s.start.text ++ "-" ++ toString s.stop.column
  else s.start.text ++ "-" ++ s.stop.text

end Span

end ParLoop
