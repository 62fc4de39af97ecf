import Semidefinite.Lmi.Error
import Semidefinite.SymMatrix

/-!
# Cutting a matrix into diagonal blocks

A square matrix is cut into the finest sequence of contiguous diagonal blocks
that leaves nothing but zeros outside. A block ends after row `c` when no row up
to `c` is coupled to a row below it.
-/

namespace Semidefinite

/-- The lowest row below `reach` that is coupled to row `c`. -/
def lowestCoupled? (isZero : Nat → Nat → Bool) (n c reach : Nat) : Option Nat :=
  ((List.range' (reach + 1) (n - (reach + 1))).reverse).find? fun r =>
    !isZero r c || !isZero c r

/-- The cuts among the next `remaining` rows from `c` on. `reach` is the lowest
row that the rows of the open block are coupled to. -/
def cutsFrom (isZero : Nat → Nat → Bool) (n : Nat) : (remaining c reach : Nat) → List Nat
  | 0, _, _ => []
  | remaining + 1, c, reach =>
    let known := max c reach
    let low := (lowestCoupled? isZero n c known).getD known
    if low = c then (c + 1) :: cutsFrom isZero n remaining (c + 1) low
    else cutsFrom isZero n remaining (c + 1) low

/-- The ends of the blocks of a matrix with the given zeros. -/
def blockBoundaries (shape : Nat × Nat) (isZero : Nat → Nat → Bool) : Except LmiError (List Nat) :=
  if shape.1 = shape.2 then .ok (cutsFrom isZero shape.1 shape.1 0 0)
  else .error (.nonSquare shape)

namespace Grid

variable {α : Type}

/-- The square window from `start` up to `stop` along the diagonal; a position
outside the grid reads `fill`. -/
def diagonalWindow (fill : α) (g : Grid α) (start stop : Nat) : Grid α :=
  tabulate (stop - start) (stop - start) fun i j => (g.entry? (start + i) (start + j)).getD fill

def cutAt (fill : α) (g : Grid α) : (start : Nat) → List Nat → List (Grid α)
  | _, [] => []
  | start, stop :: rest => g.diagonalWindow fill start stop :: cutAt fill g stop rest

variable {K : Type} [Scalar K]

/-- The ends of the blocks of a numeric matrix; NaN is no zero. -/
def boundaries (g : Grid K) : Except LmiError (List Nat) :=
  blockBoundaries g.shape fun i j => (g.entry? i j).all (· == 0)

def splitBlocks (g : Grid K) : Except LmiError (List (Grid K)) :=
  (boundaries g).map (cutAt 0 g 0)

end Grid

namespace SymMatrix

variable {K : Type} [Scalar K]

/-- Whether an entry is zero as it stands or once multiplied out. -/
def vanishes (e : Expr K) : Bool :=
  e.isZero || e.expand.isZero

/-- The ends of the blocks of a symbolic matrix. -/
def boundaries (m : SymMatrix K) : Except LmiError (List Nat) :=
  blockBoundaries m.shape fun i j => (m.entry? i j).all vanishes

def splitBlocks (m : SymMatrix K) : Except LmiError (List (SymMatrix K)) :=
  (boundaries m).map (Grid.cutAt Expr.zero m 0)

end SymMatrix

end Semidefinite
