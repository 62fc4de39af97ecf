import Semidefinite.Problem

/-!
# Synthetic problems

A deterministic family: one inequality `M(x) ⪰ 0` whose matrix has equal coupled
blocks on its diagonal, and the sum of all variables as the objective. The
weight of a variable in an entry depends on the sum of row and column, so every
block is symmetric.
-/

namespace Semidefinite.Synthetic

structure Shape where
  blocks : Nat
  blockSize : Nat
  vars : Nat
  deriving DecidableEq, Repr

def Shape.name (s : Shape) : String :=
  "b" ++ Nat.repr s.blocks ++ "_n" ++ Nat.repr s.blockSize ++ "_v" ++ Nat.repr s.vars

def Shape.dimension (s : Shape) : Nat :=
  s.blocks * s.blockSize

/-- The variables `x0`, `x1` and so on. -/
def vars (count : Nat) : List Symbol :=
  (List.range count).map fun k => { name := "x" ++ Nat.repr k }

variable {K : Type} [Scalar K]

/-- The weight of variable `k`: the numbers from -2 to 2 in turn. -/
def weight (block row col k : Nat) : K :=
  Scalar.ofInt (((row + col + k + block) % 5 : Nat) - 2)

/-- An entry of a block: the weighted variables, and on the diagonal the size plus
one. -/
def entry (xs : List Symbol) (block row col size : Nat) : Expr K :=
  let weighted := xs.zipIdx.map fun (x, k) => ((weight block row col k : K), x)
  let linear := (weighted.filter fun (w, _) => w != 0).map fun (w, x) => Expr.const w * .symbol x
  let constant := if row = col then Expr.const (Scalar.ofNat (size + 1)) else Expr.zero
  Expr.sumOf (constant :: linear)

def block (xs : List Symbol) (index size : Nat) : SymMatrix K :=
  Grid.tabulate size size fun row col => entry xs index row col size

def matrix (s : Shape) (xs : List Symbol) : SymMatrix K :=
  SymMatrix.blockDiagonal ((List.range s.blocks).map fun index => block xs index s.blockSize)

def problem (s : Shape) : Except LmiError (Problem K) := do
  let xs := vars s.vars
  let lmi ← Lmi.ofMatrix (.whole (matrix s xs))
  Problem.make (Expr.sumOf (xs.map .symbol)) [lmi] xs

end Semidefinite.Synthetic
