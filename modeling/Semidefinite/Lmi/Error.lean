import Semidefinite.LinearForm
import Semidefinite.Lmi.Kind
import Semidefinite.Storage.Basic

/-!
# Errors of inequalities and their lowering

Everything that can be wrong with an inequality, an objective or a list of
variables, from the operands to the numeric blocks. Each cause has a code and
one message that begins with it.
-/

namespace Semidefinite

/-- Why an inequality or a problem is refused. -/
inductive LmiError where
  | nonLinearExpression (cause : NonLinear)
  | nonLinearMatrix (matrix : String) (cause : NonLinear)
  | nonSymmetric (side : Side)
  | shape (left right : Nat × Nat)
  | nonSquare (shape : Nat × Nat)
  | invalidOperands
  | invalidSense (value : String)
  | duplicateVariable (name : String)
  | backendUnavailable (backend : Backend)
  | matrix (cause : MatrixError)
  deriving DecidableEq, Repr

namespace LmiError

def code : LmiError → String
  | nonLinearExpression _ => "LMI_NON_LINEAR_EXPRESSION"
  | nonLinearMatrix .. => "LMI_NON_LINEAR_MATRIX"
  | nonSymmetric _ => "LMI_NON_SYMMETRIC"
  | shape .. => "LMI_SHAPE"
  | nonSquare _ => "LMI_NON_SQUARE"
  | invalidOperands => "LMI_INVALID_OPERANDS"
  | invalidSense _ => "OBJECTIVE_INVALID_SENSE"
  | duplicateVariable _ => "VARIABLE_DUPLICATE"
  | backendUnavailable _ => "BACKEND_NOT_AVAILABLE"
  | matrix _ => "LMI_MATRIX"

def explanation : LmiError → String
  | nonLinearExpression cause => "Objective or expression is not linear: " ++ cause.message
  | nonLinearMatrix text _ =>
    "Matrix " ++ text ++ " must be composed of linear expressions w.r.t. the variables"
  | nonSymmetric side => side.text ++ " matrix is not symmetric"
  | shape left right =>
    "LMI matrices have different shapes: " ++ shapeText left ++ " vs " ++ shapeText right
  | nonSquare size => "Block decomposition needs a square matrix (got " ++ shapeText size ++ ")"
  | invalidOperands => "LMI sides must be two matrices or a matrix and a zero"
  | invalidSense value =>
    "Objective sense must be 'minimize' or 'maximize' (got '" ++ value ++ "')"
  | duplicateVariable name => "Variable '" ++ name ++ "' is listed twice"
  | backendUnavailable backend => "Backend '" ++ backend.text ++ "' is not available in this build"
  | matrix cause => cause.message

def message (e : LmiError) : String :=
  "[" ++ e.code ++ "] " ++ e.explanation

def source : LmiError → Option String
  | nonLinearExpression cause | nonLinearMatrix _ cause => some cause.message
  | matrix cause => some cause.message
  | _ => none

end LmiError

end Semidefinite
