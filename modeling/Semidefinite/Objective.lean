import Semidefinite.Pencil

/-!
# Objectives

A problem minimizes its objective. To maximize one is to minimize its negation,
and the constant term plays no part.
-/

namespace Semidefinite

inductive Sense where
  | minimize
  | maximize
  deriving DecidableEq, Repr

namespace Sense

instance : Inhabited Sense := ⟨minimize⟩

def text : Sense → String
  | minimize => "minimize"
  | maximize => "maximize"

/-- Reads the word or its first three letters; ASCII letters of either case. -/
def ofText (value : String) : Except LmiError Sense :=
  let word := value.map Char.toLower
  if word = "min" ∨ word = "minimize" then .ok minimize
  else if word = "max" ∨ word = "maximize" then .ok maximize
  else .error (.invalidSense value)

end Sense

variable {K : Type} [Scalar K]

/-- The coefficients to minimize, one per variable. -/
def objectiveCoefficients (objective : Expr K) (vars : List Symbol) (sense : Sense) :
    Lowering LmiError (List K) := do
  let target := match sense with
    | .minimize => objective
    | .maximize => objective.negate
  let form ← ExceptT.adapt (fun cause => Failure.error (.nonLinearExpression cause))
    (target.linearForm vars)
  pure form.coefficients

end Semidefinite
