import Semidefinite.Decimal.Shortest

/-!
# Laying out a decimal

A `Layout` says which magnitudes are written positionally and whether an
integral value keeps a `.0`. The others are written in scientific form, with
one digit before the point and a bare exponent: `1e16`, `1.5e-7`.
-/

namespace Semidefinite.Decimal

/-- The decisions of one number format. -/
structure Layout where
  /-- Whether a leading digit that stands for `10 ^ k` is written positionally. -/
  positional : Int → Bool
  /-- Whether an integral value ends in `.0`. -/
  pointZero : Bool

namespace Layout

def zeros (n : Nat) : String :=
  String.ofList (List.replicate n '0')

/-- `digits * 10 ^ exponent` with the point in its place. -/
def plain (layout : Layout) (d : Scaled) : String :=
  let digits := (Nat.repr d.digits).toList
  let whole := (digits.length : Int) + d.exponent
  if 0 ≤ d.exponent then
    String.ofList digits ++ zeros d.exponent.toNat ++ (if layout.pointZero then ".0" else "")
  else if 0 < whole then
    String.ofList (digits.take whole.toNat) ++ "." ++ String.ofList (digits.drop whole.toNat)
  else
    "0." ++ zeros (-whole).toNat ++ String.ofList digits

/-- `digits * 10 ^ exponent` with one digit before the point. -/
def scientific (d : Scaled) : String :=
  let digits := (Nat.repr d.digits).toList
  let lead := (digits.length : Int) + d.exponent - 1
  let fraction := digits.drop 1
  String.ofList (digits.take 1) ++
    (if fraction.isEmpty then "" else "." ++ String.ofList fraction) ++ "e" ++ Int.repr lead

/-- A magnitude in the form that the layout gives it. Zero is positional. -/
def magnitude (layout : Layout) (d : Scaled) : String :=
  let lead := ((Nat.repr d.digits).length : Int) + d.exponent - 1
  if d.digits = 0 ∨ layout.positional lead then layout.plain d else scientific d

def sign (negative : Bool) : String :=
  if negative then "-" else ""

/-- A double in its fewest digits. NaN has no sign, zero has one. -/
def render (layout : Layout) (x : Float) : String :=
  match Reading.ofFloat x with
  | .nan => "NaN"
  | .infinite negative => sign negative ++ "inf"
  | .finite negative value => sign negative ++ layout.magnitude value.shortest

end Layout

end Semidefinite.Decimal
