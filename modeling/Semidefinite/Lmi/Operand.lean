import Semidefinite.SymMatrix

/-!
# Operands of inequalities

An operand is zero or a matrix, and a matrix is given whole or as the blocks on
its diagonal. Blocks are a representation: `BlockMatrix.toDense` is the matrix
written out, and the other operations agree with it. Writing it out takes room,
also where the blocks take none, and `BlockMatrix.toDense?` faults for want of it.
-/

namespace Semidefinite

-- sums of natural numbers start from the core library's zero, whatever else is imported
attribute [local instance (high)] Zero.ofOfNat0

/-- A matrix given whole, or by its diagonal blocks. -/
inductive BlockMatrix (K : Type) where
  | whole (m : SymMatrix K)
  | blocks (parts : List (SymMatrix K))
  deriving BEq

namespace BlockMatrix

variable {K : Type} [Scalar K]

def blocks? : BlockMatrix K → Option (List (SymMatrix K))
  | whole _ => none
  | blocks parts => some parts

def shape : BlockMatrix K → Nat × Nat
  | whole m => m.shape
  | blocks parts => ((parts.map Grid.rows).sum, (parts.map Grid.cols).sum)

/-- Symmetry of the matrix, or of every block it carries. -/
def isSymmetric : BlockMatrix K → Bool
  | whole m => SymMatrix.isSymmetric m
  | blocks parts => parts.all SymMatrix.isSymmetric

def freeSymbols : BlockMatrix K → List Symbol
  | whole m => SymMatrix.freeSymbols m
  | blocks parts => ascending (parts.flatMap SymMatrix.freeSymbols)

/-- The matrix written out, with zeros between its blocks. -/
def toDense : BlockMatrix K → SymMatrix K
  | whole m => m
  | blocks parts => SymMatrix.blockDiagonal parts

/-- The matrix written out, or the fault of one that is too large. -/
def toDense? : BlockMatrix K → Except Fault (SymMatrix K)
  | whole m => .ok m
  | blocks parts => SymMatrix.blockDiagonal? parts

def negate : BlockMatrix K → BlockMatrix K
  | whole m => whole (SymMatrix.negate m)
  | blocks parts => blocks (parts.map SymMatrix.negate)

/-- `m - n`, where `n` has to have all the cells of `m`. -/
def entrywiseDifference (m n : SymMatrix K) : Except Fault (SymMatrix K) := do
  let covered ← SymMatrix.submatrix n 0 m.rows 0 m.cols
  pure (Grid.tabulate m.rows m.cols fun i j => m.entry i j - (covered.entry? i j).getD Expr.zero)

def sameLayout (left right : List (SymMatrix K)) : Bool :=
  left.map Grid.shape == right.map Grid.shape

def denseDifference (left right : BlockMatrix K) : Except Fault (BlockMatrix K) := do
  let m ← left.toDense?
  let n ← right.toDense?
  whole <$> entrywiseDifference m n

/-- `left - right`, block by block if both carry blocks of the same shapes. -/
def difference : BlockMatrix K → BlockMatrix K → Except Fault (BlockMatrix K)
  | blocks left, blocks right =>
    if sameLayout left right then
      blocks <$> (left.zip right).mapM fun (m, n) => entrywiseDifference m n
    else denseDifference (blocks left) (blocks right)
  | left, right => denseDifference left right

def text : BlockMatrix K → String
  | whole m => SymMatrix.text m
  | blocks parts => "BlockDiagMatrix(" ++ ", ".intercalate (parts.map SymMatrix.text) ++ ")"

end BlockMatrix

/-- One side of an inequality: zero or a matrix. -/
inductive Operand (K : Type) where
  | zero
  | matrix (m : BlockMatrix K)
  deriving BEq

namespace Operand

variable {K : Type} [Scalar K]

def isZero : Operand K → Bool
  | zero => true
  | matrix _ => false

def matrix? : Operand K → Option (BlockMatrix K)
  | zero => none
  | matrix m => some m

/-- Zero is symmetric. -/
def isSymmetric (o : Operand K) : Bool :=
  o.matrix?.all BlockMatrix.isSymmetric

def freeSymbols (o : Operand K) : List Symbol :=
  (o.matrix?.map BlockMatrix.freeSymbols).getD []

def text : Operand K → String
  | zero => "0"
  | matrix m => m.text

end Operand

end Semidefinite
