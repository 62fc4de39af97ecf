import Semidefinite.Text.Pattern.Escape

/-!
# Character classes in patterns

A class stands in brackets: characters, ranges of characters, shorthands, named
classes and further classes, with `&&`, `--` and `~~` between sides of it. The
readers here give the depth of a class and the text behind it.
-/

namespace Semidefinite.Text.Pattern

/-- The part of a class that has been read. -/
structure Members where
  /-- The depth of what stands before the last operator. -/
  before : Option Nat := none
  /-- What stands behind it. -/
  extent : Extent := {}
  /-- Only minus signs so far, which stand for themselves. -/
  leading : Bool := false
  deriving DecidableEq, Repr

namespace Members

def add (ms : Members) (depth : Nat) : Members :=
  { ms with extent := ms.extent.add depth, leading := false }

/-- An operator is as deep as its deeper side, and one more. -/
def depth (ms : Members) : Nat :=
  match ms.before with
  | none => ms.extent.depth
  | some d => max d ms.extent.depth + 1

/-- An operator takes all that stands before it as its left side. -/
def operator (ms : Members) : Members :=
  { before := some ms.depth }

end Members

/-! ## Members -/

def classNames : List String :=
  ["alnum", "alpha", "ascii", "blank", "cntrl", "digit", "graph", "lower", "print", "punct",
    "space", "upper", "word", "xdigit"]

/-- Behind a bracket, the rest of a named class and whether it is negated. -/
def namedClass? : List Char → Option (Bool × List Char)
  | ':' :: text =>
    let negated := text.head? == some '^'
    match (if negated then text.drop 1 else text).span (· ≠ ':') with
    | (name, ':' :: ']' :: rest) =>
      if classNames.contains (String.ofList name) then some (negated, rest) else none
    | _ => none
  | _ => none

/-- One member of a class, which may be the end of a range. -/
def readMember (m : Mode) : List Char → Option (Escape × List Char)
  | [] => none
  | '\\' :: rest => readEscape m rest
  | c :: rest => some (.character c false, rest)

def isRange : Escape → Escape → Bool
  | .character first _, .character last _ => first ≤ last
  | _, _ => false

/-- The next character behind a minus sign, blanks apart. Of a comment only its
sign is left out. -/
def behindMinus (m : Mode) (text : List Char) : Option Char :=
  if m.spaced then
    match text.dropWhile isBlank with
    | '#' :: rest => (rest.dropWhile isBlank).head?
    | rest => rest.head?
  else text.head?

/-- A single member or a range. A minus sign before a bracket or another minus sign
makes no range. -/
def readRange (m : Mode) (text : List Char) : Option (List Char) := do
  let (first, rest) ← readMember m text
  guard (m.memberFits first)
  match m.skip rest with
  | '-' :: behind =>
    if [some ']', some '-'].contains (behindMinus m behind) then some ('-' :: behind)
    else
      let (last, rest) ← readMember m (m.skip behind)
      guard (m.memberFits last && isRange first last)
      some rest
  | rest => some rest

/-! ## Classes -/

/-- Behind the bracket that opens a class. What a class leaves out is more than
ASCII, so only a class of characters can be negated. -/
def openClass (m : Mode) (text : List Char) : Option (Members × List Char) :=
  match m.skip text with
  | '^' :: rest => if m.unicode then some ({ leading := true }, rest) else none
  | rest => some ({ leading := true }, rest)

/-- The members up to the bracket that closes the class. `fuel` bounds the members,
and the length of the text is enough of it. -/
def readMembers (m : Mode) : Nat → Members → List Char → Option (Nat × List Char)
  | 0, _, _ => none
  | fuel + 1, ms, text =>
    match m.skip text with
    | [] => none
    | c :: rest =>
      if ms.leading && (c == '-' || c == ']' && ms.extent.count == 0) then do
        guard (m.memberFits (.character c false))
        readMembers m fuel { ms.add 0 with leading := c == '-' } rest
      else if c = ']' then some (ms.depth + 1, rest)
      else if c = '[' then
        match namedClass? rest with
        | some (negated, rest) => do
          guard (m.namedFits negated)
          readMembers m fuel (ms.add 0) rest
        | none => do
          let (inner, rest) ← openClass m rest
          let (depth, rest) ← readMembers m fuel inner rest
          readMembers m fuel (ms.add depth) rest
      else if ['&', '-', '~'].contains c && rest.head? == some c then
        readMembers m fuel ms.operator (rest.drop 1)
      else do readMembers m fuel (ms.add 0) (← readRange m (c :: rest))

def readClass (m : Mode) (text : List Char) : Option (Nat × List Char) := do
  let (members, rest) ← openClass m text
  readMembers m (rest.length + 1) members rest

end Semidefinite.Text.Pattern
