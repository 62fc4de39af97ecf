import Semidefinite.Expr.Polynomial
import Semidefinite.Grid

/-!
# Symbolic matrices

Grids of expressions. A matrix is symmetric when every entry above the diagonal
agrees with its mirror image, as a tree or as a polynomial.
-/

namespace Semidefinite

abbrev SymMatrix (K : Type) := Grid (Expr K)

namespace SymMatrix

variable {K : Type} [Scalar K]

def zeros (rows cols : Nat) : SymMatrix K :=
  Grid.tabulate rows cols fun _ _ => Expr.zero

def identity (n : Nat) : SymMatrix K :=
  Grid.tabulate n n fun i j => .const (if i = j then 1 else 0)

def diagonal (entries : List (Expr K)) : SymMatrix K :=
  Grid.tabulate entries.length entries.length fun i j => if i = j then entries[i] else Expr.zero

def blockDiagonal (blocks : List (SymMatrix K)) : SymMatrix K :=
  Grid.blockDiagonal Expr.zero blocks

def zeros? (rows cols : Nat) : Except Fault (SymMatrix K) :=
  Grid.tabulate? 0 rows cols fun _ _ => Expr.zero

def identity? (n : Nat) : Except Fault (SymMatrix K) :=
  Grid.tabulate? 0 n n fun i j => .const (if i = j then 1 else 0)

def blockDiagonal? (blocks : List (SymMatrix K)) : Except Fault (SymMatrix K) :=
  Grid.blockDiagonal? Expr.zero blocks

def scale (m : SymMatrix K) (factor : Expr K) : SymMatrix K :=
  m.map (· * factor)

def negate (m : SymMatrix K) : SymMatrix K :=
  m.map Expr.negate

def add? (m n : SymMatrix K) : Except MatrixError (SymMatrix K) :=
  m.zipWith? (· + ·) n

def sub? (m n : SymMatrix K) : Except MatrixError (SymMatrix K) :=
  m.zipWith? (· - ·) n

def read (m : SymMatrix K) (i j : Nat) : Except Fault (Expr K) :=
  match m.entry? i j with
  | some e => .ok e
  | none => .error (.entry i j m.rows m.cols)

/-- The rows from `r₀` up to `r₁` and the columns from `c₀` up to `c₁`. -/
def submatrix (m : SymMatrix K) (r₀ r₁ c₀ c₁ : Nat) : Except Fault (SymMatrix K) :=
  (m.window r₀ r₁ c₀ c₁).mapError fun cell => .entry cell.row cell.col m.rows m.cols

def freeSymbols (m : SymMatrix K) : List Symbol :=
  ascending (m.entries.toList.flatMap Expr.occurrences)

def isZero (m : SymMatrix K) : Bool :=
  m.entries.toList.all Expr.isZero

/-- Whether two expressions are one tree or one polynomial. -/
def agree (upper lower : Expr K) : Bool :=
  upper == lower || (upper - lower).expand.isZero

/-- Whether the matrix is square and agrees with its mirror image. -/
def isSymmetric (m : SymMatrix K) : Bool :=
  if h : m.rows = m.cols then
    (List.finRange m.rows).all fun i => (List.finRange m.rows).all fun j =>
      !decide (i < j) || agree (m.entry i (Fin.cast h j)) (m.entry j (Fin.cast h i))
  else false

def text (m : SymMatrix K) : String :=
  Grid.text Expr.text m

end SymMatrix

end Semidefinite
