/-!
# Kinds of linear matrix inequalities

Positive or negative, semidefinite or definite. A kind fixes the relation
sign in plain text and in LaTeX, and which side is the greater one.
-/

namespace Semidefinite

/-- How the left side of an inequality relates to the right one. -/
inductive Kind where
  | psd
  | pd
  | nsd
  | nd
  deriving DecidableEq, Repr

namespace Kind

def isStrict : Kind → Bool
  | pd | nd => true
  | psd | nsd => false

/-- The left side is the greater one. -/
def isPositive : Kind → Bool
  | psd | pd => true
  | nsd | nd => false

/-- The positive kind of the same strictness. -/
def canonical (k : Kind) : Kind :=
  if k.isStrict then pd else psd

/-- The kind with the sides exchanged. -/
def mirrored : Kind → Kind
  | psd => nsd
  | pd => nd
  | nsd => psd
  | nd => pd

def sign : Kind → String
  | psd => ">="
  | pd => ">"
  | nsd => "<="
  | nd => "<"

def latexSign : Kind → String
  | psd => "\\succeq"
  | pd => "\\succ"
  | nsd => "\\preceq"
  | nd => "\\prec"

end Kind

inductive Side where
  | left
  | right
  deriving DecidableEq, Repr

def Side.text : Side → String
  | .left => "lhs"
  | .right => "rhs"

end Semidefinite
