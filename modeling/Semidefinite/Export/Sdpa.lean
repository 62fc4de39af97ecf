import Semidefinite.Export.Config
import Semidefinite.Text.Lines

/-!
# SDPA files

Both formats state `min c·x` subject to `Σ xₖ·Fₖ - F₀ ⪰ 0` for every block, so
the constant of a pencil is written with the other sign. They share a header:
the number of variables, the number of blocks, the block sizes and the
objective. The sparse format then lists the non-zero entries of the upper
triangles, the dense format writes the matrices out row by row.
-/

namespace Semidefinite.Sdpa

variable {K : Type} [Scalar K] {S : Type → Type} [Storage S]

/-- A comment in double quotes, ahead of everything else. -/
def commentLines (comment : Option String) : List String :=
  comment.toList.map fun text => "\"" ++ text ++ "\""

def headerLines (p : NumericProblem S K) : List String :=
  [Nat.repr p.variableCount ++ " = ndim",
    Nat.repr p.blocks.length ++ " = nblocks",
    String.join (p.blockSizes.map fun n => Nat.repr n ++ " ") ++ "= blockstruct",
    ", ".intercalate (p.objective.map Scalar.fileText) ++ " = objcoeffs"]

/-! ## The sparse format -/

/-- One entry: the matrix, the block, row and column from one, and the value. -/
def entryLine (matrix block : Nat) (entry : Cell × K) : String :=
  " ".intercalate
    [Nat.repr matrix, Nat.repr block, Nat.repr (entry.1.row + 1), Nat.repr (entry.1.col + 1),
      Scalar.fileText entry.2]

def upperEntries (m : S K) : List (Cell × K) :=
  (Storage.nonzeros m).filter fun (cell, _) => cell.row ≤ cell.col

/-- The entry lines of the constants, which are written negated. -/
def constantLines (p : NumericProblem S K) : List String :=
  p.blocks.zipIdx.flatMap fun (block, b) =>
    (upperEntries block.constant).map fun (cell, value) => entryLine 0 (b + 1) (cell, -value)

def coefficientLines (p : NumericProblem S K) (k : Nat) : Except Fault (List String) :=
  List.flatten <$> p.blocks.zipIdx.mapM fun (block, b) => do
    let coefficient ← elementAt block.coefficients k
    pure ((upperEntries coefficient).map (entryLine (k + 1) (b + 1)))

/-- The lines of a sparse file: constants, then the variables in order. -/
def sparseLines (p : NumericProblem S K) (comment : Option String) :
    Except Fault (List String) := do
  let coefficients ← (List.range p.variableCount).mapM (coefficientLines p)
  pure (commentLines comment ++ headerLines p ++ constantLines p ++ coefficients.flatten)

def renderSparse (p : NumericProblem S K) (comment : Option String) : Except Fault String :=
  Text.unlines <$> sparseLines p comment

/-! ## The dense format -/

/-- A list with a comma after every member but the last. -/
def separated : List String → List String
  | [] => []
  | [only] => [only]
  | line :: rest => (line ++ ",") :: separated rest

/-- A matrix between braces, one line per row. -/
def matrixLines (m : Grid K) : List String :=
  let rowLine (row : List K) :=
    "  \x7b " ++ ", ".intercalate (row.map Scalar.fileText) ++ " \x7d"
  [" \x7b"] ++ separated (m.toRows.map rowLine) ++ [" \x7d"]

def groupLines (matrices : List (Grid K)) : List String :=
  ["\x7b"] ++ matrices.flatMap matrixLines ++ ["\x7d"]

def denseLines (p : NumericProblem Grid K) (comment : Option String) :
    Except Fault (List String) := do
  let constants := groupLines (p.blocks.map fun block => block.constant.map (-·))
  let coefficients ← (List.range p.variableCount).mapM fun k =>
    groupLines <$> p.blocks.mapM fun block => elementAt block.coefficients k
  pure (commentLines comment ++ headerLines p ++ constants ++ coefficients.flatten)

def renderDense (p : NumericProblem Grid K) (comment : Option String) : Except Fault String :=
  Text.unlines <$> denseLines p comment

/-! ## Exporting a problem -/

/-- The sparse file of a symbolic problem. Row lists are the storage of choice. -/
def exportSparse (p : Problem K) (config : ExportConfig) : Lowering ExportError String := do
  let numeric ← config.numeric (config.backendOr .rowLists).Store p
  Lowering.ofFault (renderSparse numeric config.comment)

/-- The sparse file of an objective and its constraints in the given variables, which have to be
distinct. -/
def sparseFile (objective : Expr K) (lmis : List (Lmi K)) (vars : List Symbol)
    (config : ExportConfig) : Lowering ExportError String := do
  let p ← Lowering.mapError .problem (Lowering.ofExcept (Problem.make objective lmis vars))
  exportSparse p config

def exportDense (p : Problem K) (config : ExportConfig) : Lowering ExportError String := do
  let numeric ← config.numeric Grid p
  Lowering.ofFault (renderDense numeric config.comment)

end Semidefinite.Sdpa
