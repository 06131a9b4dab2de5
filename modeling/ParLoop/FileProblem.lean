/-!
# Problems with files

The reasons for which a file is not read or written, and the words in which they are reported.
-/

namespace ParLoop

/-- Why a file cannot be read or written. -/
inductive FileProblem where
  | missing
  | noDevice
  | denied
  /-- A step of the path leads on from something that is no directory. -/
  | notDirectory
  | isDirectory
  | noSpace
  | readOnly
  | nameTooLong
  /-- What was read is not the encoding of a text. -/
  | notText
  /-- Any other problem, by the code and the words of the system. -/
  | other (code : Nat) (words : String)
deriving DecidableEq

namespace FileProblem

/-- The problems that have a name, with the codes by which the system reports them. -/
def codes : List (Nat × FileProblem) :=
  [(2, missing), (6, noDevice), (13, denied), (20, notDirectory), (21, isDirectory), (28, noSpace),
    (30, readOnly), (36, nameTooLong)]

/-- The problem with a code, where `words` are the system's own for it. -/
def ofCode (code : Nat) (words : String) : FileProblem :=
  (codes.lookup code).getD (other code words)

/-- Words with the code of a problem. -/
def coded (words : String) (code : Nat) : String :=
  words ++ " (os error " ++ toString code ++ ")"

/-- A problem in words. -/
def text : FileProblem → String
  | missing => coded "No such file or directory" 2
  | noDevice => coded "No such device or address" 6
  | denied => coded "Permission denied" 13
  | notDirectory => coded "Not a directory" 20
  | isDirectory => coded "Is a directory" 21
  | noSpace => coded "No space left on device" 28
  | readOnly => coded "Read-only file system" 30
  | nameTooLong => coded "File name too long" 36
  | notText => "stream did not contain valid UTF-8"
  | other code words => coded words code

end FileProblem

end ParLoop
