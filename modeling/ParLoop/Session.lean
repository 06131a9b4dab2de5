import ParLoop.Command
import ParLoop.Files

/-!
# Commands on files in memory

A `Session` is all that a command sees of a system and all that it leaves behind there.
`Session.console` lets a command run on it without any other effect.
-/

namespace ParLoop

/-- A system as a command finds it, and what the command has written. -/
structure Session where
  /-- The directory at the root of all paths. -/
  root : Files.Entry
  /-- The steps from the root to the directory in which relative paths start. -/
  directory : List String := []
  /-- What the input stream holds. -/
  input : String
  /-- What was written to the output stream. -/
  output : String := ""
  /-- What was written to the error stream. -/
  errors : String := ""
  /-- What was written to files, each with its path. -/
  written : List (String × String) := []

namespace Session

open Files

/-- The text at a path. The output streams have nothing to read. -/
def read (s : Session) (path : String) : Except FileProblem String := do
  match ← source s.root (← steps s.directory path) with
  | .file content => .ok content
  | .stream .input => .ok s.input
  | _ => .ok ""

/-- The session after a text was written to a stream. What is written to the input is lost. -/
def put (s : Session) (text : String) : Stream → Session
  | .input => s
  | .output => { s with output := s.output ++ text }
  | .errors => { s with errors := s.errors ++ text }

/-- The session after a text was written to a path. -/
def write (s : Session) (path text : String) : Except FileProblem Session := do
  match ← target s.root (← steps s.directory path) with
  | some (.stream stream) => .ok (s.put text stream)
  | some .sink => .ok s
  | _ => .ok { s with written := s.written ++ [(path, text)] }

/-- The console of a session. -/
def console : Command.Console (StateM Session) where
  read path := return (← get).read path
  write path text := do
    match (← get).write path text with
    | .ok s =>
      set s
      return .ok ()
    | .error p => return .error p
  print text := modify (·.put text .output)
  printError text := modify (·.put text .errors)

end Session

end ParLoop
