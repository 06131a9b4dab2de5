import ParLoop.Analyze
import ParLoop.FileProblem
import ParLoop.FlowGraph.Dot
import ParLoop.Json.Report
import ParLoop.Listing.Parse
import ParLoop.Listing.Print
import ParLoop.Text.Quote

/-!
# The command

A command reads the listing of a program from a file and writes a report on its loop, the program
itself or the flow graph. `Command.Options.ofArguments` reads its arguments,
`Command.Options.written` is what it writes, and `Command.run` joins both through a `Console`, which
is all that a command knows of the world.
-/

namespace ParLoop.Command

/-- How reports and programs are written. -/
inductive Format where
  | text
  | json
deriving DecidableEq

/-- What is written. -/
inductive Emit where
  | verdict
  /-- The program as it was read. -/
  | program
  /-- The program after the optimizer. -/
  | optimized
  | graph
deriving DecidableEq

/-- What a command was asked to do. -/
structure Options where
  input : Option String := none
  output : Option String := none
  format : Option Format := none
  emit : Option Emit := none
  noOptimize : Bool := false
  intraprocedural : Bool := false
  maxRounds : Option Nat := none
  quiet : Bool := false
deriving DecidableEq

/-! ### Arguments -/

/-- The options that take a value. -/
inductive ValueOption where
  | output
  | format
  | emit
  | maxRounds
deriving DecidableEq

/-- Why the reading of arguments stops before their end. -/
inductive Stop where
  | version
  | help
  | usage (problem : String)
deriving DecidableEq

/-- The state of the reading of arguments. -/
structure Reading where
  options : Options := {}
  /-- The option whose value is the next argument. -/
  pending : Option ValueOption := none
  /-- All further arguments are files. -/
  filesOnly : Bool := false

/-- Stops at a problem with the arguments. -/
def misuse {α : Type} (problem : String) : Except Stop α := .error (.usage problem)

/-- Enters a value that may be given once. -/
def once {α : Type} (what : String) (value : α) : Option α → Except Stop (Option α)
  | none => .ok (some value)
  | some _ => misuse (what ++ " cannot be given twice")

/-- Sets a switch that may be given once. -/
def switch (what : String) (isSet : Bool) : Except Stop Bool :=
  if isSet then misuse (what ++ " cannot be given twice") else .ok true

/-- The value of a word out of a table. -/
def wordValue {α : Type} (what : String) (words : List (String × α)) (w : String) :
    Except Stop α :=
  match words.lookup w with
  | some v => .ok v
  | none => misuse ("invalid value '" ++ w ++ "' for " ++ what)

/-- The words for formats. -/
def formatWords : List (String × Format) := [("text", .text), ("json", .json)]

/-- The words for what is written. -/
def emitWords : List (String × Emit) :=
  [("verdict", .verdict), ("ir", .program), ("optimized", .optimized), ("cfg", .graph)]

/-- The largest number of rounds that can be asked for. -/
def maxCount : Nat := 18446744073709551615

/-- A number of rounds: digits, possibly after a plus sign. -/
def roundsValue (w : String) : Except Stop Nat :=
  let digits := match w.toList with
    | '+' :: rest => rest
    | all => all
  let value := digits.foldl (fun n c => 10 * n + (c.toNat - '0'.toNat)) 0
  if digits.isEmpty || !digits.all Char.isDigit || maxCount < value then
    misuse ("invalid value '" ++ w ++ "' for --max-opt-iterations")
  else .ok value

/-- The path in an argument, which may not be empty. -/
def pathValue (what w : String) : Except Stop String :=
  if w.isEmpty then misuse ("a value is required for " ++ what) else .ok w

/-- Enters the value of an option. -/
def setValue (o : Options) (w : String) : ValueOption → Except Stop Options
  | .output => do
    let v ← pathValue "--output" w
    return { o with output := ← once "--output" v o.output }
  | .format => do
    let v ← wordValue "--format" formatWords w
    return { o with format := ← once "--format" v o.format }
  | .emit => do
    let v ← wordValue "--emit" emitWords w
    return { o with emit := ← once "--emit" v o.emit }
  | .maxRounds => do
    let v ← roundsValue w
    return { o with maxRounds := ← once "--max-opt-iterations" v o.maxRounds }

/-- The long names of options with a value. -/
def longValueOptions : List (String × ValueOption) :=
  [("output", .output), ("format", .format), ("emit", .emit), ("max-opt-iterations", .maxRounds)]

/-- Reads an argument after two dashes, with the value after an equals sign if there is one. -/
def readLong (r : Reading) (name : String) (value : Option String) : Except Stop Reading :=
  match longValueOptions.lookup name, value with
  | some option, some w => return { r with options := ← setValue r.options w option }
  | some option, none => return { r with pending := some option }
  | none, some _ => misuse ("unexpected argument '--" ++ name ++ "'")
  | none, none => do
    let o := r.options
    match name with
    | "version" => .error .version
    | "help" => .error .help
    | "no-optimize" =>
      return { r with options := { o with noOptimize := ← switch "--no-optimize" o.noOptimize } }
    | "intraprocedural" =>
      let set ← switch "--intraprocedural" o.intraprocedural
      return { r with options := { o with intraprocedural := set } }
    | "quiet" => return { r with options := { o with quiet := ← switch "--quiet" o.quiet } }
    | "verbose" => return r
    | _ => misuse ("unexpected argument '--" ++ name ++ "'")

/-- Reads the letters after a single dash. A letter of an option with a value takes the rest as its
value. -/
def readShort (r : Reading) : List Char → Except Stop Reading
  | [] => return r
  | c :: rest => do
    let valueOption (option : ValueOption) : Except Stop Reading :=
      match rest with
      | [] => return { r with pending := some option }
      | '=' :: value => return { r with options := ← setValue r.options (.ofList value) option }
      | value => return { r with options := ← setValue r.options (.ofList value) option }
    match c with
    | 'V' => .error .version
    | 'h' => .error .help
    | 'v' => readShort r rest
    | 'q' =>
      let set ← switch "--quiet" r.options.quiet
      readShort { r with options := { r.options with quiet := set } } rest
    | 'o' => valueOption .output
    | 'f' => valueOption .format
    | _ => misuse ("unexpected argument '-" ++ c.toString ++ "'")

/-- Reads an argument that names a file. -/
def readPath (r : Reading) (w : String) : Except Stop Reading :=
  match r.options.input with
  | none => return { r with options := { r.options with input := some (← pathValue "FILE" w) } }
  | some _ => misuse ("unexpected argument '" ++ w ++ "'")

/-- Reads one argument. -/
def readArgument (r : Reading) (w : String) : Except Stop Reading :=
  match r.pending with
  | some option =>
    match w.toList with
    | '-' :: _ :: _ => misuse "a value is required"
    | _ => return { r with options := ← setValue r.options w option, pending := none }
  | none =>
    if r.filesOnly then readPath r w
    else
      match w.toList with
      | ['-', '-'] => return { r with filesOnly := true }
      | '-' :: '-' :: rest =>
        let name := rest.takeWhile (· ≠ '=')
        let value := match rest.dropWhile (· ≠ '=') with
          | _ :: value => some (String.ofList value)
          | [] => none
        readLong r (.ofList name) value
      | '-' :: c :: rest => readShort r (c :: rest)
      | _ => readPath r w

/-- What a list of arguments asks for. -/
def Options.ofArguments (arguments : List String) : Except Stop Options := do
  let r ← arguments.foldlM readArgument {}
  match r.pending with
  | some _ => misuse "a value is required"
  | none => return r.options

/-! ### Output -/

/-- Why a command fails: what it was doing, and what went wrong. -/
structure Fault where
  context : String
  problem : String
deriving DecidableEq

/-- A fault as it is printed. -/
def Fault.text (f : Fault) : String :=
  "Error: " ++ f.context ++ "\n\nCaused by:\n    " ++ f.problem ++ "\n"

/-- The configuration that a command asks for. -/
def Options.config (o : Options) : Config where
  optimize := !o.noOptimize
  interprocedural := !o.intraprocedural
  maxRounds := o.maxRounds.getD Optimizer.defaultRounds

/-- A program in the format asked for. -/
def Options.programText (o : Options) (p : Program) : String :=
  match o.format with
  | some .json => p.toJson.pretty
  | _ => p.listing

/-- A report in the format asked for. -/
def Options.reportText (o : Options) (r : Report) : String :=
  match o.format with
  | some .json => r.toJson.pretty
  | _ => r.text

/-- The program as it is to be checked. -/
def Options.optimized (o : Options) (p : Program) : Except Fault Program :=
  match p.optimized o.config with
  | .ok (q, _) => .ok q
  | .error e => .error ⟨"Optimizer failed", e.message⟩

/-- What a command writes, given the text of the file at `path`. -/
def Options.written (o : Options) (path source : String) : Except Fault String := do
  let p ← (Listing.parse source).mapError fun e => ⟨"Failed to parse " ++ Text.quote path, e.text⟩
  match o.emit.getD .verdict with
  | .program => return o.programText p
  | .optimized => return o.programText (← o.optimized p)
  | .graph =>
    match FlowGraph.ofProgram (← o.optimized p) o.config.interprocedural with
    | .ok (g, _) => return g.dot
    | .error e => .error ⟨"Failed to build the control-flow graph", e.message⟩
  | .verdict => return o.reportText (p.analyze o.config)

/-! ### Running -/

/-- What a command can do to the world. Files are read and written by their paths. -/
structure Console (m : Type → Type) where
  read : String → m (Except FileProblem String)
  write : String → String → m (Except FileProblem Unit)
  print : String → m Unit
  printError : String → m Unit

/-- The version of the command. -/
def versionText : String := "loopdep 0.1.0\n"

/-- How the command is called. -/
def usageText : String :=
  "Usage: loopdep [-o FILE] [-f text|json] [--emit verdict|ir|optimized|cfg] [--no-optimize]\n" ++
  "               [--intraprocedural] [--max-opt-iterations N] [-q] [-v] [-V] FILE\n"

variable {m : Type → Type} [Monad m]

/-- Prints a fault and answers the exit code for it. -/
def Console.fail (c : Console m) (f : Fault) : m Nat := do
  c.printError f.text
  return 1

/-- Prints a problem with the arguments and answers the exit code for it. -/
def Console.refuse (c : Console m) (problem : String) : m Nat := do
  c.printError ("error: " ++ problem ++ "\n\n" ++ usageText)
  return 2

/-- Writes the output of a command, to a file if one is named. -/
def Console.deliver (c : Console m) (o : Options) (output : String) : m Nat := do
  match o.output with
  | none =>
    c.print (output ++ "\n")
    return 0
  | some path =>
    match ← c.write path output with
    | .ok () => return 0
    | .error problem => c.fail ⟨"Failed to write output file: " ++ Text.quote path, problem.text⟩

/-- Carries out a command and answers its exit code. -/
def run (c : Console m) (arguments : List String) : m Nat := do
  match Options.ofArguments arguments with
  | .error .version =>
    c.print versionText
    return 0
  | .error .help =>
    c.print usageText
    return 0
  | .error (.usage problem) => c.refuse problem
  | .ok o =>
    let some path := o.input | c.refuse "a file is required"
    match ← c.read path with
    | .error problem => c.fail ⟨"Failed to read input file: " ++ Text.quote path, problem.text⟩
    | .ok source =>
      match o.written path source with
      | .error f => c.fail f
      | .ok output => c.deliver o output

end ParLoop.Command
