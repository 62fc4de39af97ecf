import Semidefinite.Storage.Basic

/-!
# Dense storage

A grid of numbers keeps every cell, zero or not.
-/

namespace Semidefinite.Grid

variable {K : Type}

def write (g : Grid K) (row col : Nat) (value : K) : Except Fault (Grid K) :=
  if row < g.rows ∧ col < g.cols then .ok (g.put row col value)
  else .error (.denseCell row col g.rows g.cols)

def read (g : Grid K) (row col : Nat) : Except Fault K :=
  match g.entry? row col with
  | some value => .ok value
  | none => .error (.denseCell row col g.rows g.cols)

def nonzeros [Scalar K] (g : Grid K) : List (Cell × K) :=
  g.cells.filter fun (_, value) => value != 0

instance : Storage Grid where
  zeros rows cols := tabulate rows cols fun _ _ => 0
  shape := shape
  set := write
  setFresh := write
  get := read
  nonzeros := nonzeros
  toDense := id

end Semidefinite.Grid
