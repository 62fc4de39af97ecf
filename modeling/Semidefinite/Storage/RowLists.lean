import Semidefinite.Storage.Basic

/-!
# Storage by row lists

Each row lists its non-zero values by ascending column. A zero is never kept:
writing one removes what the cell held.
-/

namespace Semidefinite

-- sums of natural numbers start from the core library's zero, whatever else is imported
attribute [local instance (high)] Zero.ofOfNat0

/-- The non-zero values of each row, with their columns. -/
structure RowLists (K : Type) where
  cols : Nat
  rows : List (List (Nat × K))
  deriving BEq, Repr

namespace RowLists

variable {K : Type}

def zeros (rows cols : Nat) : RowLists K :=
  ⟨cols, List.replicate rows []⟩

def shape (m : RowLists K) : Nat × Nat :=
  (m.rows.length, m.cols)

def count (m : RowLists K) : Nat :=
  (m.rows.map List.length).sum

def row (m : RowLists K) (index : Nat) : Except Fault (List (Nat × K)) :=
  elementAt m.rows index

/-- The value in front of a list, unless it is zero. -/
def consNonzero [Scalar K] (col : Nat) (value : K) (rest : List (Nat × K)) : List (Nat × K) :=
  if value == 0 then rest else (col, value) :: rest

def setInRow [Scalar K] (col : Nat) (value : K) : List (Nat × K) → List (Nat × K)
  | [] => consNonzero col value []
  | (c, v) :: rest =>
    match compare col c with
    | .lt => consNonzero col value ((c, v) :: rest)
    | .eq => consNonzero col value rest
    | .gt => (c, v) :: setInRow col value rest

def contains (m : RowLists K) (row col : Nat) : Bool :=
  row < m.rows.length && col < m.cols

def outside (m : RowLists K) (row col : Nat) : Fault :=
  .listedCell row col m.rows.length m.cols

def set [Scalar K] (m : RowLists K) (row col : Nat) (value : K) : Except Fault (RowLists K) :=
  if m.contains row col then .ok { m with rows := m.rows.modify row (setInRow col value) }
  else .error (m.outside row col)

def get [Scalar K] (m : RowLists K) (row col : Nat) : Except Fault K :=
  if m.contains row col then .ok ((((m.rows[row]?).getD []).lookup col).getD 0)
  else .error (m.outside row col)

def nonzeros (m : RowLists K) : List (Cell × K) :=
  m.rows.zipIdx.flatMap fun (entries, i) => entries.map fun (j, value) => (⟨i, j⟩, value)

instance : Storage RowLists where
  zeros := zeros
  shape := shape
  set := set
  setFresh := set
  get := get
  nonzeros := nonzeros
  toDense m := Storage.fill m.shape m.nonzeros

end RowLists

end Semidefinite
