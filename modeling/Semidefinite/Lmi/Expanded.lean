import Semidefinite.Lmi.Basic
import Semidefinite.Pencil

/-!
# Expanded inequalities

A side that contains a listed variable is written as `Σ Cₖ · xₖ + C₀` with
numeric matrices; any other side stays as it is.
-/

namespace Semidefinite

/-- Coefficient matrices with their variables, and a constant matrix unless it is
zero. -/
structure LinearMatrix (K : Type) where
  terms : List (Symbol × Grid K)
  constant : Option (Grid K)

namespace LinearMatrix

variable {K : Type} [Scalar K]

def ofMatrix (m : SymMatrix K) (vars : List Symbol) : Lowering LmiError (LinearMatrix K) := do
  let p ← Pencil.extract Grid m vars
  pure {
    terms := vars.zip p.coefficients
    constant := if p.constant.entries.any (· != 0) then some p.constant else none }

/-- The shape of the constant, or else of the first coefficient. -/
def shape (m : LinearMatrix K) : Nat × Nat :=
  match m.constant, m.terms with
  | some c, _ => c.shape
  | none, (_, c) :: _ => c.shape
  | none, [] => (0, 0)

def toSymbolic (m : LinearMatrix K) : SymMatrix K :=
  Grid.tabulate m.shape.1 m.shape.2 fun i j =>
    let linear := m.terms.map fun (x, c) => Expr.const (Storage.value c i j) * .symbol x
    let constant := m.constant.toList.map fun c => Expr.const (Storage.value c i j)
    Expr.sumOf (linear ++ constant)

def text (m : LinearMatrix K) : String :=
  let linear := m.terms.map fun (x, c) => Grid.text Scalar.exprText c ++ "*" ++ x.text
  let constant := m.constant.toList.map (Grid.text Scalar.exprText)
  match linear ++ constant with
  | [] => "0"
  | parts => " + ".intercalate parts

end LinearMatrix

inductive ExpandedOperand (K : Type) where
  | zero
  | symbolic (m : BlockMatrix K)
  | linear (m : LinearMatrix K)

namespace ExpandedOperand

variable {K : Type} [Scalar K]

/-- Expands a side that contains one of the variables. -/
def ofOperand (o : Operand K) (vars : List Symbol) : Lowering LmiError (ExpandedOperand K) :=
  match o with
  | .zero => pure zero
  | .matrix m =>
    if m.freeSymbols.any vars.contains then do
      let dense ← Lowering.ofFault m.toDense?
      linear <$> LinearMatrix.ofMatrix dense vars
    else pure (symbolic m)

def text : ExpandedOperand K → String
  | zero => "0"
  | symbolic m => m.text
  | linear m => m.text

end ExpandedOperand

structure ExpandedLmi (K : Type) where
  lhs : ExpandedOperand K
  rhs : ExpandedOperand K
  kind : Kind

variable {K : Type} [Scalar K]

/-- Expands the left side, then the right one. -/
def Lmi.expanded (l : Lmi K) (vars : List Symbol) : Lowering LmiError (ExpandedLmi K) := do
  let lhs ← ExpandedOperand.ofOperand l.lhs vars
  let rhs ← ExpandedOperand.ofOperand l.rhs vars
  pure ⟨lhs, rhs, l.kind⟩

def ExpandedLmi.text (l : ExpandedLmi K) : String :=
  l.lhs.text ++ " " ++ l.kind.sign ++ " " ++ l.rhs.text

end Semidefinite
