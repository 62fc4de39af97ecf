import Semidefinite.Fault

/-!
# Cutting texts at byte offsets

Offsets count the bytes of a text in UTF-8. A text can be cut where a character
starts and at its end; a cut anywhere else is a fault.
-/

namespace Semidefinite.Text

def dropBytes? : Nat → List Char → Option (List Char)
  | 0, text => some text
  | _ + 1, [] => none
  | n + 1, c :: rest =>
    if c.utf8Size ≤ n + 1 then dropBytes? (n + 1 - c.utf8Size) rest else none

def takeBytes? : Nat → List Char → Option (List Char)
  | 0, _ => some []
  | _ + 1, [] => none
  | n + 1, c :: rest =>
    if c.utf8Size ≤ n + 1 then (takeBytes? (n + 1 - c.utf8Size) rest).map (c :: ·) else none

def textFrom (first : Nat) (text : List Char) : Except Fault (List Char) :=
  (dropBytes? first text).elim (.error (.insideCharacter first)) .ok

def textBetween (first last : Nat) (text : List Char) : Except Fault (List Char) := do
  let rest ← textFrom first text
  (takeBytes? (last - first) rest).elim (.error (.insideCharacter last)) .ok

/-- The characters with their offsets, the first of which is given. -/
def withOffsets : Nat → List Char → List (Nat × Char)
  | _, [] => []
  | offset, c :: rest => (offset, c) :: withOffsets (offset + c.utf8Size) rest

end Semidefinite.Text
