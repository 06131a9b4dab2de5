import ParLoop.Program

/-!
# From programs to listings

A program is listed as its symbols, its procedures and its loop, in this order, with one instruction
a line.
-/

namespace ParLoop

/-- A header and lines in braces, the lines indented by two blanks. -/
def listBlock (header : String) (lines : List String) : String :=
  header ++ " \x7b" ++ String.join (lines.map fun l => "\n  " ++ l) ++ "\n\x7d"

/-- The word for a visibility in listings. -/
def Visibility.word : Visibility → String
  | .localVariable => "local"
  | .parameter => "param"
  | .privateMember => "private"
  | .publicMember => "public"

/-- The word for a kind of rebinding in listings. -/
def RebindingKind.word : RebindingKind → String
  | .initializer => "init"
  | .assignment => "assign"
  | .refArgument => "refarg"

/-- The word for what a symbol is bound to in listings. -/
def RebindingValue.word : RebindingValue → String
  | .fresh => "fresh"
  | .null => "null"
  | .reference => "ref"

/-- The listing of a symbol. -/
def Symbol.listing (s : Symbol) : String :=
  "symbol " ++ s.name ++ ": " ++ s.visibility.word ++ " " ++ s.element.name ++
    String.join (List.replicate s.rank "[]") ++
    String.join (s.rebindings.map fun r => " " ++ r.kind.word ++ "(" ++ r.value.word ++ ")") ++ ";"

/-- The listing of a procedure. -/
def Procedure.listing (p : Procedure) : String :=
  listBlock ("proc " ++ p.name ++ "(" ++ ", ".intercalate p.parameters ++ ")")
    (p.body.map Instr.text)

/-- The first line of the loop. Bounds are listed if both are known. -/
def Program.header (p : Program) : String :=
  match p.lower, p.upper with
  | some lower, some upper => "loop " ++ p.counter ++ " = " ++ lower.text ++ " to " ++ upper.text
  | _, _ => "loop " ++ p.counter

/-- The listing of a program. -/
def Program.listing (p : Program) : String :=
  String.join (p.symbols.values.map fun s => s.listing ++ "\n") ++
    String.join (p.procedures.values.map fun f => f.listing ++ "\n") ++
    listBlock p.header (p.body.map Instr.text) ++ "\n"

end ParLoop
