import Semidefinite.LinearForm
import Semidefinite.Lmi.Error
import Semidefinite.Storage.Choice
import Semidefinite.SymMatrix

/-!
# Matrix pencils

A pencil is the numeric form `C₀ + Σ xₖ · Cₖ` of a symbolic matrix that is linear
in the variables. `Pencil.extract` reads the linear form of every entry and
writes its parts into the matrices; `Pencil.toSymbolic` goes back.
-/

namespace Semidefinite

/-- A constant matrix and one coefficient matrix per variable. -/
structure Pencil (S : Type → Type) (K : Type) where
  coefficients : List (S K)
  constant : S K

/-- A computation that draws nonces and may stop at a fault or an error. -/
abbrev Lowering (ε : Type) := ExceptT (Failure ε) (StateM NonceSupply)

namespace Lowering

def ofExcept {ε α : Type} : Except ε α → Lowering ε α
  | .ok a => pure a
  | .error e => throw (.error e)

def ofFault {ε α : Type} : Except Fault α → Lowering ε α
  | .ok a => pure a
  | .error f => throw (.fault f)

def mapError {ε δ α : Type} (f : ε → δ) (x : Lowering ε α) : Lowering δ α :=
  ExceptT.adapt (Failure.mapError f) x

end Lowering

variable {K : Type} [Scalar K]

/-- The linear forms of the entries other than the constant zero, row after row. -/
def SymMatrix.linearForms (m : SymMatrix K) (vars : List Symbol) :
    Lowering LmiError (List (Cell × LinearForm K)) :=
  (m.cells.filter fun (_, e) => !e.isZero).mapM fun (cell, e) => do
    let form ← ExceptT.adapt (fun cause => Failure.error (.nonLinearMatrix m.text cause))
      (e.linearForm vars)
    pure (cell, form)

namespace Pencil

variable {S : Type → Type} [Storage S]

def shape (p : Pencil S K) : Nat × Nat :=
  Storage.shape p.constant

def variableCount (p : Pencil S K) : Nat :=
  p.coefficients.length

/-- The pencil with the constants and the coefficients of the given forms in
their cells. -/
def ofForms (shape : Nat × Nat) (variableCount : Nat) (forms : List (Cell × LinearForm K)) :
    Except Fault (Pencil S K) := do
  let constant ← Storage.ofEntries shape.1 shape.2
    (forms.map fun (cell, form) => (cell, form.constant))
  let coefficients ← (List.range variableCount).mapM fun k =>
    Storage.ofEntries shape.1 shape.2
      (forms.filterMap fun (cell, form) => (form.coefficient? k).map (cell, ·))
  pure ⟨coefficients, constant⟩

/-- The pencil of a symbolic matrix. The first entry that is not linear in the
variables is an error. -/
def extract (S : Type → Type) [Storage S] (m : SymMatrix K) (vars : List Symbol) :
    Lowering LmiError (Pencil S K) := do
  let forms ← m.linearForms vars
  Lowering.ofFault (ofForms m.shape vars.length forms)

def toDense (p : Pencil S K) : Pencil Grid K :=
  ⟨p.coefficients.map Storage.toDense, Storage.toDense p.constant⟩

/-- The entry `C₀ + Σ xₖ · Cₖ` at a cell. -/
def entry (p : Pencil S K) (vars : List Symbol) (row col : Nat) : Expr K :=
  Expr.sumOf (.const (Storage.value p.constant row col) ::
    (p.coefficients.zip vars).map fun (coefficient, x) =>
      .const (Storage.value coefficient row col) * .symbol x)

def toSymbolic (p : Pencil S K) (vars : List Symbol) : SymMatrix K :=
  Grid.tabulate p.shape.1 p.shape.2 fun i j => p.entry vars i j

end Pencil

end Semidefinite
