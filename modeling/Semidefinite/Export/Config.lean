import Semidefinite.Problem

/-!
# Export configuration

What an exporter may be told about a problem, and the errors it may answer with.
-/

namespace Semidefinite

/-- Sense, cutting, a comment for the text formats, and a choice of storage. -/
structure ExportConfig where
  sense : Sense := .minimize
  cutting : Cutting := .finest
  comment : Option String := none
  backend : Option Backend := none
  deriving DecidableEq, Repr

namespace ExportConfig

def isDefault (c : ExportConfig) : Bool :=
  c == {}

/-- The chosen storage, or else the preferred one. -/
def backendOr (c : ExportConfig) (preferred : Backend) : Backend :=
  c.backend.getD preferred

end ExportConfig

inductive ExportError where
  | problem (cause : LmiError)
  | unavailable (operation : String)
  | format (reason : String)
  deriving DecidableEq, Repr

namespace ExportError

/-- The failure of a writer that gives no reason of its own. -/
def writer : ExportError :=
  format "an error occurred when formatting an argument"

def code : ExportError → String
  | problem cause => cause.code
  | unavailable _ => "EXPORT_NOT_AVAILABLE"
  | format _ => "EXPORT_FORMAT"

def message (e : ExportError) : String :=
  match e with
  | problem cause => cause.message
  | unavailable operation =>
    "[" ++ e.code ++ "] Function " ++ operation ++ " not available in this build"
  | format reason => "[" ++ e.code ++ "] Failed to write output: " ++ reason

def source : ExportError → Option String
  | problem cause => some cause.message
  | unavailable _ | format _ => none

end ExportError

variable {K : Type} [Scalar K]

def ExportConfig.numeric (c : ExportConfig) (S : Type → Type) [Storage S] (p : Problem K) :
    Lowering ExportError (NumericProblem S K) :=
  Lowering.mapError .problem (p.numeric S c.sense c.cutting)

end Semidefinite
