import ParLoop.FileProblem

/-!
# Files in memory

A tree of directories, files and devices, and what the steps of a path lead to in it. The names `.`
and `..` lead to a directory itself and to the one above it; the root is above itself. Empty steps,
which come of doubled and closing slashes, lead from a directory to itself.
-/

namespace ParLoop.Files

/-- A stream that a command is started with. -/
inductive Stream where
  | input
  | output
  | errors
deriving DecidableEq

/-- What a name in a directory stands for. -/
inductive Entry where
  | file (content : String)
  | stream (s : Stream)
  /-- A device that is empty and takes all that is written to it. -/
  | sink
  /-- A device that has no room for anything. -/
  | full
  /-- A device that cannot be opened. -/
  | closed (problem : FileProblem)
  | directory (entries : List (String × Entry))

/-- The largest number of bytes in a name. -/
def maxName : Nat := 255

/-- The largest number of bytes in a path. -/
def maxPath : Nat := 4095

/-- What a name stands for among the entries of a directory. -/
def find (entries : List (String × Entry)) (name : String) : Except FileProblem Entry :=
  if maxName < name.utf8ByteSize then .error .nameTooLong
  else match entries.lookup name with
    | some e => .ok e
    | none => .error .missing

/-- What a list of steps leads to from an entry, where `above` are the directories above it, the
nearest first. -/
def follow : (above : List Entry) → Entry → List String → Except FileProblem Entry
  | _, here, [] => .ok here
  | above, .directory entries, step :: rest =>
    if step = "" || step = "." then follow above (.directory entries) rest
    else if step = ".." then
      match above with
      | [] => follow [] (.directory entries) rest
      | up :: more => follow more up rest
    else
      match find entries step with
      | .ok e => follow (.directory entries :: above) e rest
      | .error p => .error p
  | _, _, _ :: _ => .error .notDirectory

/-- The parts of a text between slashes. -/
def split (text : List Char) : List (List Char) :=
  text.foldr (fun c parts => if c = '/' then [] :: parts else match parts with
    | [] => [[c]]
    | part :: rest => (c :: part) :: rest) [[]]

/-- The steps that a path takes from the root, if those of `directory` lead to where it starts. -/
def steps (directory : List String) (path : String) : Except FileProblem (List String) :=
  if path.isEmpty then .error .missing
  else if maxPath < path.utf8ByteSize then .error .nameTooLong
  else
    let parts := (split path.toList).map String.ofList
    .ok (if path.toList.head? = some '/' then parts else directory ++ parts)

/-- What is to be read at the end of the steps. -/
def source (root : Entry) (steps : List String) : Except FileProblem Entry := do
  match ← follow [] root steps with
  | .directory _ => .error .isDirectory
  | .closed p => .error p
  | e => .ok e

/-- What is to be written to at the end of the steps, `none` for a file that is not there yet. A
path that closes with a slash names a directory. -/
def target (root : Entry) (steps : List String) : Except FileProblem (Option Entry) := do
  match steps.reverse.dropWhile (· = "") with
  | [] => .error .isDirectory
  | name :: before =>
    match ← follow [] root before.reverse with
    | .directory entries =>
      if name = "." || name = ".." || steps.getLast? = some "" then .error .isDirectory
      else match find entries name with
        | .ok (.directory _) => .error .isDirectory
        | .ok (.closed p) => .error p
        | .ok .full => .error .noSpace
        | .ok e => .ok (some e)
        | .error .missing => .ok none
        | .error p => .error p
    | _ => .error .notDirectory

end ParLoop.Files
