import Semidefinite.Text.Blank

/-!
# Symbols

A symbol is a named scalar unknown. Two symbols of one name are the same
symbol, except for nonces, which carry a serial number drawn from a
`NonceSupply` and stand for nothing that was named before.
-/

namespace Semidefinite

/-- A named symbol, or a nonce with its serial number. -/
structure Symbol where
  name : String
  serial : Option UInt32 := none
  deriving DecidableEq, Repr

namespace Symbol

def isNonce (s : Symbol) : Bool :=
  s.serial.isSome

/-- Symbols are ordered by name; the named symbol comes before the nonces, and
those by serial number. -/
instance : Ord Symbol where
  compare := compareLex (compareOn name) (compareOn serial)

/-- The name, followed by the serial number of a nonce. -/
def text (s : Symbol) : String :=
  match s.serial with
  | none => s.name
  | some n => s.name ++ Nat.repr n.toNat

/-- The symbols named in a text, separated by blanks or commas. -/
def named (names : String) : List Symbol :=
  (Text.words (fun c => Text.isBlank c || c == ',') names).map fun name => { name }

end Symbol

/-- The serial number of the next nonce. -/
structure NonceSupply where
  next : UInt32
  deriving DecidableEq, Repr

namespace NonceSupply

def first : NonceSupply := ⟨0⟩

def peek (supply : NonceSupply) : Symbol :=
  { name := "_nonce", serial := some supply.next }

/-- Draws a nonce. The numbers start again after the largest one. -/
def draw : StateM NonceSupply Symbol := fun supply =>
  (supply.peek, ⟨supply.next + 1⟩)

end NonceSupply

end Semidefinite
