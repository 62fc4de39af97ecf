/-!
# Faults

A fault is an access outside the bounds of the value it was made on, or a matrix
too large for the machine. It is no answer to a question about the input but the
end of the computation, so it stays apart from the errors that a caller may act
on.
-/

namespace Semidefinite

/-- An access outside the bounds of a value, or a value that cannot be laid out. -/
inductive Fault where
  /-- An entry of a symbolic matrix. -/
  | entry (row col rows cols : Nat)
  /-- A cell of a matrix stored by row lists. -/
  | listedCell (row col rows cols : Nat)
  /-- A cell of a dense numeric matrix. -/
  | denseCell (row col rows cols : Nat)
  /-- A cell of a matrix stored as triplets. -/
  | tripletCell (row col rows cols : Nat)
  /-- A position in a list of the given length. -/
  | position (index length : Nat)
  /-- A byte of a text that is not the first of a character. -/
  | insideCharacter (offset : Nat)
  /-- A matrix in an inequality between zero and zero. -/
  | noMatrix
  /-- A matrix of a shape that is too large. -/
  | noRoom (rows cols : Nat)
  deriving DecidableEq, Repr

namespace Fault

def cellText (row col : Nat) : String :=
  "(" ++ Nat.repr row ++ ", " ++ Nat.repr col ++ ")"

def sizeText (rows cols : Nat) : String :=
  Nat.repr rows ++ "x" ++ Nat.repr cols

def message : Fault → String
  | entry row col rows cols =>
    "index " ++ cellText row col ++ " out of range for " ++ sizeText rows cols ++ " matrix"
  | listedCell row col rows cols =>
    "index " ++ cellText row col ++ " out of bounds for " ++ sizeText rows cols ++ " matrix"
  | denseCell row col rows cols =>
    "no cell " ++ cellText row col ++ " in a dense " ++ sizeText rows cols ++ " matrix"
  | tripletCell row col rows cols =>
    "no cell " ++ cellText row col ++ " in a sparse " ++ sizeText rows cols ++ " matrix"
  | position index length =>
    "no position " ++ Nat.repr index ++ " in a list of " ++ Nat.repr length
  | insideCharacter offset => "no character starts at byte " ++ Nat.repr offset
  | noMatrix => "no matrix in an inequality between zero and zero"
  | noRoom rows cols => "no room for a " ++ sizeText rows cols ++ " matrix"

end Fault

/-- A computation stopped by a fault or by an error of type `ε`. -/
inductive Failure (ε : Type) where
  | fault (f : Fault)
  | error (e : ε)
  deriving DecidableEq, Repr

namespace Failure

def mapError {ε δ : Type} (f : ε → δ) : Failure ε → Failure δ
  | fault g => fault g
  | error e => error (f e)

end Failure

/-- The element at a position, or the fault of asking for it. -/
def elementAt {α : Type} (items : List α) (index : Nat) : Except Fault α :=
  match items[index]? with
  | some a => .ok a
  | none => .error (.position index items.length)

end Semidefinite
