import Semidefinite.Decimal.Layout

/-!
# A fixed number of decimal places

The exact binary value is rounded to the given number of places, a half to the
even neighbour.
-/

namespace Semidefinite.Decimal

-- powers of natural numbers are those of the core library, whatever else is imported
attribute [local instance (high)] instPowNat

/-- `numerator / denominator` rounded to the nearest natural, a half to the even
one. -/
def roundHalfEven (numerator denominator : Nat) : Nat :=
  let q := numerator / denominator
  let r := numerator % denominator
  match compare (2 * r) denominator with
  | .lt => q
  | .gt => q + 1
  | .eq => if q % 2 = 0 then q else q + 1

/-- `units / 10 ^ places`, written with that many places. -/
def fixedDigits (places units : Nat) : String :=
  let whole := Nat.repr (units / 10 ^ places)
  let fraction := Nat.repr (units % 10 ^ places)
  if places = 0 then whole
  else whole ++ "." ++ Layout.zeros (places - fraction.length) ++ fraction

def fixed (places : Nat) (x : Float) : String :=
  match Reading.ofFloat x with
  | .nan => "NaN"
  | .infinite negative => Layout.sign negative ++ "inf"
  | .finite negative value =>
    let (numerator, denominator) := value.quotient
    Layout.sign negative ++
      fixedDigits places (roundHalfEven (numerator * 10 ^ places) denominator)

end Semidefinite.Decimal
