import Semidefinite.Text.Letters

/-!
# Modes of patterns

Search patterns are checked here and never run. They are meant for automata
over UTF-8 that have no table of Unicode properties at hand, neither for
classes of characters nor for the two cases of a letter. What a pattern may
hold therefore depends on the mode at each place, which the pattern itself
switches.
-/

namespace Semidefinite.Text

inductive PatternError where
  /-- It is not well formed, or needs a table, or can match what is no UTF-8. -/
  | malformed
  /-- It asks for the boundaries of words in Unicode. -/
  | wordBoundary
  deriving DecidableEq, Repr

def PatternError.message : PatternError → String
  | malformed => "error building NFA"
  | wordBoundary =>
    "unsupported regex feature for DFAs: cannot build DFAs for regexes with Unicode word " ++
      "boundaries; switch to ASCII word boundaries, or heuristically enable Unicode word " ++
      "boundaries or use a different regex engine"

end Semidefinite.Text

namespace Semidefinite.Text.Pattern

/-- The switches that decide what a pattern may hold. -/
structure Mode where
  /-- Blanks and comments between parts do not count. -/
  spaced : Bool := false
  /-- Letters stand for both of their cases. -/
  caseless : Bool := false
  /-- Characters are matched, and not bytes. -/
  unicode : Bool := true
  deriving DecidableEq, Repr

/-- What a backslash makes of the characters behind it. -/
inductive Escape where
  /-- A character. `isByte` says that it is written as two hexadecimal digits. -/
  | character (c : Char) (isByte : Bool)
  /-- Digits, blanks or word characters, or all characters but these. -/
  | shorthand (negated : Bool)
  | wordBoundary
  /-- The start or the end of the text. -/
  | textEdge
  deriving DecidableEq, Repr

namespace Mode

/-! ## Switches -/

/-- The letters of the switches. All but `i`, `u` and `x` change only what is matched. -/
def switches : List Char :=
  "imsUuRx".toList

/-- Whether the switches can stand together: no letter twice, and at most one minus
sign, which is not the last. -/
def canSwitch (flags : List Char) : Bool :=
  flags.all (fun c => c == '-' || switches.contains c) &&
    flags.eraseDups.length == flags.length && flags.getLast? != some '-'

/-- The mode after switches. Those behind a minus sign are turned off. -/
def switch (m : Mode) (flags : List Char) : Mode :=
  let on := flags.takeWhile (· ≠ '-')
  let state (flag : Char) (before : Bool) :=
    if on.contains flag then true else !flags.contains flag && before
  { spaced := state 'x' m.spaced
    caseless := state 'i' m.caseless
    unicode := state 'u' m.unicode }

/-! ## Blanks -/

/-- The text behind blanks and comments, perhaps from inside a comment. A comment
starts with a number sign and ends with its line. -/
def afterBlanks : Bool → List Char → List Char
  | _, [] => []
  | true, c :: rest => afterBlanks (c ≠ '\n') rest
  | false, c :: rest =>
    if isBlank c then afterBlanks false rest
    else if c = '#' then afterBlanks true rest
    else c :: rest

/-- The text from the next character that counts. -/
def skip (m : Mode) (text : List Char) : List Char :=
  if m.spaced then afterBlanks false text else text

/-! ## What fits a mode -/

/-- Outside classes. A byte beyond ASCII is no UTF-8. -/
def fits (m : Mode) : Escape → Bool
  | .character c isByte => if m.unicode then !m.caseless else !isByte || c.toNat < 128
  | .shorthand negated => !m.unicode && !negated
  | .wordBoundary | .textEdge => true

/-- Inside classes, which hold no characters beyond ASCII if bytes are matched. -/
def memberFits (m : Mode) : Escape → Bool
  | .character c _ => if m.unicode then !m.caseless else c.toNat < 128
  | .shorthand negated => !m.unicode && !negated
  | .wordBoundary | .textEdge => false

/-- A class with a name, such as `[:alpha:]`. -/
def namedFits (m : Mode) (negated : Bool) : Bool :=
  if m.unicode then !m.caseless else !negated

end Mode

/-! ## Depth -/

/-- Several parts beside each other. -/
structure Extent where
  count : Nat := 0
  /-- The depth of the deepest part. -/
  deepest : Nat := 0
  deriving DecidableEq, Repr

namespace Extent

def add (e : Extent) (depth : Nat) : Extent :=
  ⟨e.count + 1, max e.deepest depth⟩

/-- One part alone is as deep as it is, several are deeper by one. -/
def depth (e : Extent) : Nat :=
  if e.count ≤ 1 then e.deepest else e.deepest + 1

end Extent

end Semidefinite.Text.Pattern
