import ParLoop.Command

/-!
# The command line

Carries out a command on the files and streams of the system.
-/

namespace ParLoop.Command

/-- The number by which the system reports an error. Some operations report it negated, as a 32-bit
word. -/
def errorCode (code : UInt32) : Nat :=
  if code.toNat < 2147483648 then code.toNat else 4294967296 - code.toNat

/-- The problem that an error reports. -/
def problemOf : IO.Error → FileProblem
  | .noFileOrDirectory _ code words | .interrupted _ code words
  | .alreadyExists _ code words | .invalidArgument _ code words | .permissionDenied _ code words
  | .resourceExhausted _ code words | .inappropriateType _ code words | .noSuchThing _ code words
  | .otherError code words | .resourceBusy code words | .resourceVanished code words
  | .unsupportedOperation code words | .hardwareFault code words
  | .unsatisfiedConstraints code words | .illegalOperation code words
  | .protocolError code words | .timeExpired code words => .ofCode (errorCode code) words
  | e => .other 0 (toString e)

/-- What a file operation comes to. -/
def attempt {α : Type} (act : IO α) : IO (Except FileProblem α) := do
  match ← act.toBaseIO with
  | .ok a => return .ok a
  | .error e => return .error (problemOf e)

/-- The text of a file. -/
def readText (path : String) : IO (Except FileProblem String) := do
  match ← attempt (IO.FS.readBinFile path) with
  | .error p => return .error p
  | .ok bytes => return match String.fromUTF8? bytes with
    | some text => .ok text
    | none => .error .notText

/-- The files and streams of the system. -/
def systemConsole : Console IO where
  read := readText
  write path text := attempt (IO.FS.withFile path .write fun file => do
    file.putStr text
    file.flush)
  print := IO.print
  printError := IO.eprint

end ParLoop.Command

/-- Carries out the command given by the arguments. -/
def main (arguments : List String) : IO UInt32 := do
  return (← ParLoop.Command.run ParLoop.Command.systemConsole arguments).toUInt32
