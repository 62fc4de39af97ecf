import Semidefinite.Text.Blank

/-!
# Destinations of files

A file is written under a name after the directories on the way to it have been made.
`checkDestination` tells from the name alone whether that can work in a tree that
holds nothing yet.
-/

namespace Semidefinite.CommandLine

inductive PathError where
  /-- It is the name of a directory. -/
  | directory
  /-- It leads through a directory that is not there. -/
  | missing
  /-- It is too long, or a part of it is. -/
  | tooLong
  deriving DecidableEq, Repr

def PathError.message : PathError → String
  | directory => "Is a directory (os error 21)"
  | missing => "No such file or directory (os error 2)"
  | tooLong => "File name too long (os error 36)"

/-- A place in a tree of directories, seen from where the way to it starts. -/
structure Location where
  /-- The number of directories to leave. -/
  up : Nat := 0
  /-- The names to go down by, the last one first. -/
  names : List String := []
  deriving DecidableEq, Repr

def Location.step (l : Location) (name : String) : Location :=
  if name = ".." then
    match l.names with
    | [] => { l with up := l.up + 1 }
    | _ :: names => { l with names }
  else { l with names := name :: l.names }

def Location.ofSteps (steps : List String) : Location :=
  steps.foldl Location.step {}

/-- Whether a name as a whole has more bytes than it may. -/
def isLongPath (path : String) : Bool :=
  4096 ≤ path.utf8ByteSize

/-- Whether a part of a name has more bytes than it may. -/
def isLongPart (name : String) : Bool :=
  255 < name.utf8ByteSize

/-- Checks the parts of a name. The last part that is not `.` names the file, and all
parts before it name directories that are made for it. `closed` says that a slash
follows the last part. -/
def checkParts (parts : List String) (closed : Bool) : Except PathError Unit :=
  let steps := parts.filter (· ≠ ".")
  match steps.getLast? with
  | none => .error .directory
  | some name =>
    let parents := steps.dropLast
    let made := (List.range parents.length).map fun k => Location.ofSteps (parents.take (k + 1))
    let endsInDot := parts.getLast? == some "."
    if parents.any isLongPart then .error .tooLong
    else if name = ".." || closed && !endsInDot then .error .directory
    else if isLongPart name then .error .tooLong
    else if made.contains (Location.ofSteps steps) then .error .directory
    else if endsInDot then .error .missing
    else .ok ()

/-- Checks the name of a file. A name that is too long as a whole leads nowhere,
whatever its parts are. -/
def checkDestination (path : String) : Except PathError Unit :=
  if isLongPath path then .error .tooLong
  else checkParts (Text.words (· == '/') path) (path.endsWith "/")

end Semidefinite.CommandLine
