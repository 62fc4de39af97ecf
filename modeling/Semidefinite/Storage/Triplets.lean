import Semidefinite.Storage.Basic
import Semidefinite.Tally

/-!
# Storage by triplets

A list of written values with their cells, in the order of writing. A cell's
value is the sum of its triplets, so a fresh value is appended and an overwrite
first drops what the cell had.
-/

namespace Semidefinite

/-- The values written, with their cells. -/
structure Triplets (K : Type) where
  rows : Nat
  cols : Nat
  written : Array (Cell × K)
  deriving BEq, Repr

namespace Triplets

variable {K : Type}

def zeros (rows cols : Nat) : Triplets K :=
  ⟨rows, cols, #[]⟩

def shape (m : Triplets K) : Nat × Nat :=
  (m.rows, m.cols)

def count (m : Triplets K) : Nat :=
  m.written.size

def push (m : Triplets K) (row col : Nat) (value : K) : Except Fault (Triplets K) :=
  if row < m.rows ∧ col < m.cols then .ok { m with written := m.written.push (⟨row, col⟩, value) }
  else .error (.tripletCell row col m.rows m.cols)

/-- Appends the triplet of a value other than zero. -/
def setFresh [Scalar K] (m : Triplets K) (row col : Nat) (value : K) : Except Fault (Triplets K) :=
  if value != 0 then m.push row col value else .ok m

/-- Drops the triplets of the cell and appends the new value. -/
def set [Scalar K] (m : Triplets K) (row col : Nat) (value : K) : Except Fault (Triplets K) :=
  setFresh { m with written := m.written.filter fun (cell, _) => cell != ⟨row, col⟩ } row col value

/-- The sum of the cell's triplets, which starts from negative zero. Any cell may
be asked for. -/
def get [Scalar K] (m : Triplets K) (row col : Nat) : K :=
  let own := m.written.toList.filter fun (cell, _) => cell == ⟨row, col⟩
  own.foldl (fun acc (_, v) => acc + v) (-0)

/-- The sums by cell, row after row, without the zero ones. -/
def nonzeros [Scalar K] (m : Triplets K) : List (Cell × K) :=
  (Tally.ofList m.written.toList).dropZeros.entries

instance : Storage Triplets where
  zeros := zeros
  shape := shape
  set := set
  setFresh := setFresh
  get m row col := .ok (m.get row col)
  nonzeros := nonzeros
  toDense m := Storage.fill m.shape m.nonzeros

end Triplets

end Semidefinite
