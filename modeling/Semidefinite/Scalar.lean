import Semidefinite.Decimal.Layout

/-!
# Scalars

The numbers that expressions and matrices are built from. Programs run on
`Float`; `Rat` reads the same definitions in exact arithmetic, so that a
statement about the algebra need not speak of rounding.
-/

namespace Semidefinite

/-- Arithmetic, comparison and the two texts of a number. Equality is that of
the numbers: on doubles `0.0 == -0.0`, and NaN differs from itself. -/
class Scalar (K : Type) extends Zero K, One K, Add K, Mul K, Neg K, BEq K where
  /-- The number `n`. -/
  ofNat : Nat → K
  /-- The text inside an expression. -/
  exprText : K → String
  /-- The text in a solver's input file. -/
  fileText : K → String

-- a type with operations of its own is read with those
attribute [instance (500)] Scalar.toZero Scalar.toOne

namespace Scalar

variable {K : Type} [Scalar K]

def ofInt : Int → K
  | .ofNat n => ofNat n
  | .negSucc n => -ofNat (n + 1)

/-- `base ^ exponent` by repeated squaring, from the lowest bit of the exponent
upwards. -/
def power (base : K) (exponent : Nat) : K :=
  ((List.range (exponent.log2 + 1)).foldl
    (fun (result, square) i =>
      (if exponent.testBit i then result * square else result, square * square))
    (1, base)).1

end Scalar

/-- Inside an expression a number is written positionally, however large or
small, and an integral value has no point. -/
def exprLayout : Decimal.Layout where
  positional _ := true
  pointZero := false

/-- In a file a number from `1e-4` up to `1e16` is written positionally, any
other in scientific form, and an integral value ends in `.0`. -/
def fileLayout : Decimal.Layout where
  positional lead := -4 ≤ lead && lead < 16
  pointZero := true

instance : Scalar Float where
  ofNat := Float.ofNat
  exprText := exprLayout.render
  fileText := fileLayout.render

/-- A fraction in lowest terms, without the denominator 1. -/
def ratText (q : Rat) : String :=
  if q.den = 1 then Int.repr q.num else Int.repr q.num ++ "/" ++ Nat.repr q.den

instance : Scalar Rat where
  zero := 0
  one := 1
  ofNat n := (n : Rat)
  exprText := ratText
  fileText := ratText

end Semidefinite
