import Semidefinite.Text.Pattern.CharacterClass
import Semidefinite.Text.Pattern.Group

/-!
# Checking patterns

A pattern is read from left to right. The groups that are open form a stack, and of
what has been read only its depth is kept. Counted repetitions are not among
the patterns here.
-/

namespace Semidefinite.Text.Pattern

structure Body where
  /-- The depth of the deepest alternative that is complete, if there is one. -/
  complete : Option Nat := none
  /-- The parts of the alternative being read. -/
  extent : Extent := {}
  /-- The depth of the last part, if that can be repeated. -/
  last : Option Nat := none
  deriving DecidableEq, Repr

namespace Body

def add (b : Body) (depth : Nat) : Body :=
  { b with extent := b.extent.add depth, last := some depth }

/-- Switches count as a part, but not one to repeat. -/
def addSwitches (b : Body) : Body :=
  { b with extent := b.extent.add 0, last := none }

/-- A repetition of the last part, which takes its place. -/
def repeated (b : Body) : Option Body :=
  b.last.map fun depth =>
    { b with
      extent := { b.extent with deepest := max b.extent.deepest (depth + 1) }
      last := some (depth + 1) }

/-- The alternative is complete, and another one starts. -/
def alternative (b : Body) : Body :=
  { complete := some (max (b.complete.getD 0) b.extent.depth) }

/-- Several alternatives are deeper by one. -/
def depth (b : Body) : Nat :=
  match b.complete with
  | none => b.extent.depth
  | some d => max d b.extent.depth + 1

end Body

/-- Where the reading of a pattern stands. -/
structure Reader where
  mode : Mode := {}
  body : Body := {}
  /-- What stands before the open groups and its modes, innermost first. -/
  around : List (Body × Mode) := []
  /-- The names of groups so far. -/
  names : List (List Char) := []
  /-- Whether the boundary of a word in Unicode is asked for. -/
  boundary : Bool := false
  deriving DecidableEq, Repr

namespace Reader

def add (r : Reader) (depth : Nat) : Reader :=
  { r with body := r.body.add depth }

def addEscape (r : Reader) (e : Escape) : Option Reader := do
  guard (r.mode.fits e)
  some { r.add 0 with boundary := r.boundary || e == .wordBoundary && r.mode.unicode }

/-- A parenthesis has been opened. Names are given once. -/
def addHead (r : Reader) : Head → Option Reader
  | .switches mode => some { r with mode, body := r.body.addSwitches }
  | .group mode name => do
    guard (name.all (!r.names.contains ·))
    some { r with
      mode
      body := {}
      around := (r.body, r.mode) :: r.around
      names := name.toList ++ r.names }

/-- The innermost group ends and is a part of what is around it. -/
def close (r : Reader) : Option Reader :=
  match r.around with
  | [] => none
  | (body, mode) :: around =>
    some { r with mode, around, body := body.add (r.body.depth + 1) }

/-- The next part of a pattern, and the text behind it. -/
def next (r : Reader) : List Char → Option (Reader × List Char)
  | [] => none
  | '(' :: rest => do
    let (head, rest) ← readHead r.mode rest
    some (← r.addHead head, rest)
  | ')' :: rest => do some (← r.close, rest)
  | '|' :: rest => some ({ r with body := r.body.alternative }, rest)
  | '[' :: rest => do
    let (depth, rest) ← readClass r.mode rest
    some (r.add depth, rest)
  | '\\' :: rest => do
    let (e, rest) ← readEscape r.mode rest
    some (← r.addEscape e, rest)
  | '{' :: _ => none
  | c :: rest =>
    if ['*', '+', '?'].contains c then do
      let body ← r.body.repeated
      some ({ r with body }, if rest.head? == some '?' then rest.drop 1 else rest)
    else if c = '.' then do
      guard r.mode.unicode
      some (r.add 0, rest)
    else if c = '^' ∨ c = '$' then some (r.add 0, rest)
    else do some (← r.addEscape (.character c false), rest)

/-- Reads the rest of a pattern. `fuel` bounds the parts, and more than the length
of the text is enough of it. -/
def run : Nat → Reader → List Char → Option Reader
  | 0, _, _ => none
  | fuel + 1, r, text =>
    match r.mode.skip text with
    | [] => some r
    | text => do
      let (r, rest) ← r.next text
      run fuel r rest

end Reader

/-- The depth up to which patterns are taken. -/
def maxDepth : Nat := 250

/-- Checks a pattern. Boundaries of words are what is looked at last. -/
def check (text : List Char) : Except PatternError Unit :=
  match Reader.run (text.length + 1) {} text with
  | none => .error .malformed
  | some r =>
    if !r.around.isEmpty || maxDepth < r.body.depth then .error .malformed
    else if r.boundary then .error .wordBoundary
    else .ok ()

end Semidefinite.Text.Pattern
