import Semidefinite.BlockCuts
import Semidefinite.Lmi.Basic
import Semidefinite.Objective

/-!
# Semidefinite problems

A problem asks for the least or greatest value of a linear objective under
linear matrix inequalities. Lowering it takes the canonical matrix of every
inequality, cuts it into diagonal blocks, and extracts a pencil from each block.
-/

namespace Semidefinite

/-- How canonical matrices are cut into blocks. -/
inductive Cutting where
  /-- One block per inequality. -/
  | whole
  /-- The blocks that a matrix carries; a matrix that carries none is cut finely. -/
  | carried
  /-- The finest blocks. -/
  | finest
  deriving DecidableEq, Repr

structure Problem (K : Type) where
  objective : Expr K
  lmis : List (Lmi K)
  vars : List Symbol

/-- A problem in numbers: objective coefficients and a pencil per block. -/
structure NumericProblem (S : Type → Type) (K : Type) where
  objective : List K
  blocks : List (Pencil S K)

variable {K : Type} [Scalar K]

/-- The blocks of one canonical matrix. -/
def BlockMatrix.cut (cutting : Cutting) (m : BlockMatrix K) :
    Except (Failure LmiError) (List (SymMatrix K)) :=
  match cutting, m with
  | .whole, m => ([·]) <$> m.toDense?.mapError .fault
  | .carried, .blocks parts => .ok parts
  | .finest, .blocks parts => (List.flatten <$> parts.mapM SymMatrix.splitBlocks).mapError .error
  | _, .whole m => (SymMatrix.splitBlocks m).mapError .error

def Lmi.canonicalBlocks (cutting : Cutting) (l : Lmi K) :
    Except (Failure LmiError) (List (SymMatrix K)) := do
  let m ← l.canonicalMatrix.mapError .fault
  m.cut cutting

def canonicalBlocks (lmis : List (Lmi K)) (cutting : Cutting) :
    Except (Failure LmiError) (List (SymMatrix K)) :=
  List.flatten <$> lmis.mapM (Lmi.canonicalBlocks cutting)

def lowerBlocks (S : Type → Type) [Storage S] (lmis : List (Lmi K)) (vars : List Symbol)
    (cutting : Cutting) : Lowering LmiError (List (Pencil S K)) := do
  let blocks ← ExceptT.mk (pure (canonicalBlocks lmis cutting))
  blocks.mapM fun block => Pencil.extract S block vars

/-- The named symbols of an objective and its constraints, ascending. Nonces are
not variables. -/
def discoverVariables (objective : Expr K) (lmis : List (Lmi K)) : List Symbol :=
  (ascending (objective.occurrences ++ lmis.flatMap Lmi.freeSymbols)).filter (!·.isNonce)

/-- The first member of a list that has occurred before. -/
def firstRepeated? {α : Type} [BEq α] : (seen : List α) → List α → Option α
  | _, [] => none
  | seen, a :: rest => if seen.contains a then some a else firstRepeated? (a :: seen) rest

namespace Problem

/-- The problem in the given variables, which have to be distinct. -/
def make (objective : Expr K) (lmis : List (Lmi K)) (vars : List Symbol) :
    Except LmiError (Problem K) :=
  match firstRepeated? [] vars with
  | some x => .error (.duplicateVariable x.text)
  | none => .ok ⟨objective, lmis, vars⟩

/-- The problem in the symbols that occur in it. -/
def discover (objective : Expr K) (lmis : List (Lmi K)) : Problem K :=
  ⟨objective, lmis, discoverVariables objective lmis⟩

def objectiveCoefficients (p : Problem K) (sense : Sense) : Lowering LmiError (List K) :=
  Semidefinite.objectiveCoefficients p.objective p.vars sense

/-- The problem in numbers: first the objective, then the blocks. -/
def numeric (S : Type → Type) [Storage S] (p : Problem K) (sense : Sense) (cutting : Cutting) :
    Lowering LmiError (NumericProblem S K) := do
  let objective ← p.objectiveCoefficients sense
  let blocks ← lowerBlocks S p.lmis p.vars cutting
  pure ⟨objective, blocks⟩

end Problem

namespace NumericProblem

variable {S : Type → Type} [Storage S]

def variableCount (p : NumericProblem S K) : Nat :=
  p.objective.length

def blockSizes (p : NumericProblem S K) : List Nat :=
  p.blocks.map fun block => block.shape.1

end NumericProblem

end Semidefinite
