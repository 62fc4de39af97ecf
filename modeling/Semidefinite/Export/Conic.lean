import Semidefinite.Export.Config

/-!
# Conic form

The triple `(c, G, h)` of conic solvers: every block asks that `h - Σ xₖ·Gₖ` be
positive semidefinite. Column `k` of a block's `G` is the negated coefficient
matrix of variable `k`, column after column, and `h` is the constant.
-/

namespace Semidefinite

/-- Objective, and one `G` and one `h` per block. -/
structure ConicProblem (K : Type) where
  objective : List K
  gs : List (Grid K)
  hs : List (Grid K)

namespace ConicProblem

variable {K : Type} [Scalar K]

/-- The `n × n` matrices side by side, negated, each flattened into one column:
row `i + j * n` holds the entry `(i, j)`. -/
def flattenColumns (n : Nat) (matrices : List (Grid K)) : Grid K :=
  Grid.tabulate (n * n) matrices.length fun r k =>
    -Storage.value matrices[k] (r % n) (r / n)

/-- The `G` of a block with `n` rows, whose coefficients have to cover `n × n`
cells. Their number has to be a machine word, even if there are no coefficients. -/
def ofPencil (p : Pencil Grid K) : Except Fault (Grid K) :=
  let n := p.constant.rows
  if Grid.Fits UInt64.size (p.constant.rows * p.constant.cols) n n then do
    let squares ← p.coefficients.mapM fun m =>
      (m.window 0 n 0 n).mapError fun cell => .denseCell cell.row cell.col m.rows m.cols
    pure (flattenColumns n squares)
  else .error (.noRoom n n)

def ofNumeric (p : NumericProblem Grid K) : Except Fault (ConicProblem K) := do
  let gs ← p.blocks.mapM ofPencil
  pure ⟨p.objective, gs, p.blocks.map Pencil.constant⟩

def ofProblem (p : Problem K) (config : ExportConfig) : Lowering ExportError (ConicProblem K) := do
  let numeric ← config.numeric Grid p
  Lowering.ofFault (ofNumeric numeric)

end ConicProblem

end Semidefinite
