import Semidefinite.Text.Pattern.Mode

/-!
# Heads of groups in patterns

What stands right behind a parenthesis: nothing, a name, or switches, which hold
for the group that they open or else for the rest of the one around them.
-/

namespace Semidefinite.Text.Pattern

/-- What a parenthesis is the start of. -/
inductive Head where
  /-- A group, with the mode inside it. -/
  | group (mode : Mode) (name : Option (List Char))
  /-- Switches alone. -/
  | switches (mode : Mode)
  deriving DecidableEq, Repr

/-- A letter or `_`, then also numerals and `.`, `[` and `]`. -/
def isName : List Char → Bool
  | [] => false
  | c :: rest =>
    (isLetter c || c == '_') &&
      rest.all fun c => isLetter c || isNumeral c || ['_', '.', '[', ']'].contains c

/-- A group with a name, behind its angle bracket. -/
def readNamed (m : Mode) (text : List Char) : Option (Head × List Char) :=
  match text.span (· ≠ '>') with
  | (name, _ :: rest) => if isName name then some (.group m (some name), rest) else none
  | (_, []) => none

/-- Switches, behind their question mark. A colon opens a group with them. -/
def readSwitches (m : Mode) (text : List Char) : Option (Head × List Char) := do
  match text.span fun c => c ≠ ':' ∧ c ≠ ')' with
  | (flags, stop :: rest) =>
    guard (Mode.canSwitch flags)
    if stop = ':' then some (.group (m.switch flags) none, rest)
    else if flags.isEmpty then none
    else some (.switches (m.switch flags), rest)
  | (_, []) => none

def readHead (m : Mode) (text : List Char) : Option (Head × List Char) :=
  match m.skip text with
  | '?' :: 'P' :: '<' :: rest | '?' :: '<' :: rest => readNamed m rest
  | '?' :: rest => readSwitches m rest
  | rest => some (.group m none, rest)

end Semidefinite.Text.Pattern
