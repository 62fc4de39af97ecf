import Semidefinite.Export.Sdpa
import Semidefinite.Synthetic

/-!
# Profiling the lowering of a problem

A profiled run takes a problem through four stages: canonical inequalities,
diagonal blocks, pencils, and the sparse file. `Profile.lower` is the run
itself; a `Sample` adds what was measured.
-/

namespace Semidefinite.Profile

-- sums of natural numbers start from the core library's zero, whatever else is imported
attribute [local instance (high)] Zero.ofOfNat0

variable {K : Type} [Scalar K]

/-- What a run has to show. -/
structure Lowered where
  blockSizes : List Nat
  nonzeros : Nat
  bytes : Nat
  deriving DecidableEq, Repr

/-- The first stage: every inequality in canonical form. -/
def canonicalize (p : Problem K) : Except Fault (List (Lmi K)) :=
  p.lmis.mapM Lmi.canonical

/-- The third stage: the objective to minimize and the pencils of the blocks. -/
def extract (S : Type → Type) [Storage S] (p : Problem K) (blocks : List (SymMatrix K)) :
    Lowering LmiError (NumericProblem S K) := do
  let objective ← p.objectiveCoefficients .minimize
  let pencils ← blocks.mapM fun block => Pencil.extract S block p.vars
  pure ⟨objective, pencils⟩

def countNonzeros {S : Type → Type} [Storage S] (p : NumericProblem S K) : Nat :=
  (p.blocks.map fun block =>
    ((block.constant :: block.coefficients).map fun m => (Storage.nonzeros m).length).sum).sum

def summarize {S : Type → Type} [Storage S] (p : NumericProblem S K) (file : String) : Lowered where
  blockSizes := p.blockSizes
  nonzeros := countNonzeros p
  bytes := file.utf8ByteSize

/-- All four stages. -/
def lower (S : Type → Type) [Storage S] (p : Problem K) (cutting : Cutting) :
    Lowering LmiError Lowered := do
  let lmis ← Lowering.ofFault (canonicalize p)
  let blocks ← ExceptT.mk (pure (canonicalBlocks lmis cutting))
  let numeric ← extract S p blocks
  let file ← Lowering.ofFault (Sdpa.renderSparse numeric none)
  pure (summarize numeric file)

/-- One profiled run of a case on a backend. Times are in milliseconds. -/
structure Sample where
  caseName : String
  backend : String
  repetition : Nat
  blockSizes : List Nat
  nonzeros : Nat
  bytes : Nat
  extractTime : Float
  totalTime : Float

def Sample.ofLowered (shape : Synthetic.Shape) (backend : Backend) (repetition : Nat)
    (run : Lowered) (extractTime totalTime : Float) : Sample where
  caseName := shape.name
  backend := backend.text
  repetition := repetition
  blockSizes := run.blockSizes
  nonzeros := run.nonzeros
  bytes := run.bytes
  extractTime := extractTime
  totalTime := totalTime

end Semidefinite.Profile
