import Semidefinite.Grid
import Semidefinite.Scalar

/-!
# Storage of numeric matrices

A `Storage` keeps the values of a numeric matrix: it starts from zeros, writes
and reads single cells, and lists the cells that are not zero in row-major
order. The kinds of storage differ in what they keep, not in what they read.
-/

namespace Semidefinite

/-- The kinds of storage: every cell, a list per row, or a list of triplets. -/
inductive Backend where
  | dense
  | rowLists
  | triplets
  deriving DecidableEq, Repr

namespace Backend

def text : Backend → String
  | dense => "dense"
  | rowLists => "sparse_lil"
  | triplets => "sparse_native"

/-- Every kind of storage is built in. -/
def isAvailable (_ : Backend) : Bool := true

instance : Inhabited Backend := ⟨dense⟩

end Backend

/-- Matrices over any scalar, kept as `S K`. -/
class Storage (S : Type → Type) where
  zeros {K : Type} [Scalar K] (rows cols : Nat) : S K
  shape {K : Type} (m : S K) : Nat × Nat
  /-- Writes a value over whatever the cell holds. -/
  set {K : Type} [Scalar K] (m : S K) (row col : Nat) (value : K) : Except Fault (S K)
  /-- Writes a value into a cell that was not written before. -/
  setFresh {K : Type} [Scalar K] (m : S K) (row col : Nat) (value : K) : Except Fault (S K)
  get {K : Type} [Scalar K] (m : S K) (row col : Nat) : Except Fault K
  /-- The cells that are not zero, row after row. -/
  nonzeros {K : Type} [Scalar K] (m : S K) : List (Cell × K)
  /-- The matrix with every cell written out. -/
  toDense {K : Type} [Scalar K] (m : S K) : Grid K

namespace Storage

variable {S : Type → Type} [Storage S] {K : Type} [Scalar K]

/-- The value of a cell, zero outside the matrix. -/
def value (m : S K) (row col : Nat) : K :=
  match get m row col with
  | .ok v => v
  | .error _ => 0

def fill (shape : Nat × Nat) (entries : List (Cell × K)) : Grid K :=
  entries.foldl (fun g (cell, value) => g.put cell.row cell.col value)
    (Grid.tabulate shape.1 shape.2 fun _ _ => 0)

/-- A matrix of the given shape with the entries that are not zero written into
fresh cells. -/
def ofEntries (rows cols : Nat) (entries : List (Cell × K)) : Except Fault (S K) :=
  (entries.filter fun (_, value) => value != 0).foldlM
    (fun m (cell, value) => setFresh m cell.row cell.col value) (zeros rows cols)

end Storage

end Semidefinite
