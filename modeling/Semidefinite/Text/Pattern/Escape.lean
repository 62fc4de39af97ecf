import Semidefinite.Text.Pattern.Mode

/-!
# Escapes in patterns

A backslash takes its meaning from the character behind it: a character given
by its number, a control character, a class, a place, or a sign that stands for
itself.
-/

namespace Semidefinite.Text.Pattern

def hexDigit? (c : Char) : Option Nat :=
  if c.isDigit then some (c.toNat - 48)
  else if 'a' ≤ c.toLower ∧ c.toLower ≤ 'f' then some (c.toLower.toNat - 87)
  else none

/-- The number that some more digits make of one. -/
def readHex (m : Mode) : Nat → Nat → List Char → Option (Nat × List Char)
  | 0, value, text => some (value, text)
  | digits + 1, value, text =>
    match m.skip text with
    | [] => none
    | c :: rest => do readHex m digits (16 * value + (← hexDigit? c)) rest

def readCode (m : Mode) (digits : Nat) (text : List Char) : Option (Escape × List Char) := do
  let (code, rest) ← readHex m digits 0 text
  if code.isValidChar then some (.character (Char.ofNat code) (digits == 2), rest) else none

def controls : List (Char × Char) :=
  [('a', '\x07'), ('f', '\x0c'), ('n', '\n'), ('r', '\r'), ('t', '\t'), ('v', '\x0b')]

/-- What stands behind a backslash. Properties in Unicode, `\p` and `\P`, are not among
it, as there is no table of them. -/
def readEscape (m : Mode) : List Char → Option (Escape × List Char)
  | [] => none
  | 'x' :: rest => readCode m 2 rest
  | 'u' :: rest => readCode m 4 rest
  | 'U' :: rest => readCode m 8 rest
  | 'b' :: '{' :: _ => none
  | c :: rest =>
    if ['d', 's', 'w'].contains c then some (.shorthand false, rest)
    else if ['D', 'S', 'W'].contains c then some (.shorthand true, rest)
    else if ['b', 'B', '<', '>'].contains c then some (.wordBoundary, rest)
    else if ['A', 'z'].contains c then some (.textEdge, rest)
    else
      match controls.lookup c with
      | some control => some (.character control false, rest)
      | none =>
        if c.toNat < 128 && !c.isAlphanum then some (.character c false, rest) else none

end Semidefinite.Text.Pattern
