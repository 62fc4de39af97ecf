import Semidefinite.Decimal.Binary

/-!
# The fewest digits that identify a double

The reals that round to a double form an interval around it. `Binary.shortest`
looks for a decimal in that interval on ever finer grids: one digit, two
digits, and so on. On each grid only the two neighbours of the value matter.
The first grid with a hit wins, of two hits the nearer one, and of two equally
near ones the larger.
-/

namespace Semidefinite.Decimal

-- powers of natural numbers are those of the core library, whatever else is imported
attribute [local instance (high)] instPowNat

/-- The number `digits * 10 ^ exponent`. -/
structure Scaled where
  digits : Nat
  exponent : Int
  deriving DecidableEq, Repr

/-- Compares `a * 10 ^ i` with `n * 2 ^ j`. -/
def compareScaled (a : Nat) (i : Int) (n : Nat) (j : Int) : Ordering :=
  compare (a * 10 ^ i.toNat * 2 ^ (-j).toNat) (n * 2 ^ j.toNat * 10 ^ (-i).toNat)

namespace Scaled

/-- Drops the trailing zeros of the digits, at most `fuel` of them. -/
def strip : (fuel : Nat) → Scaled → Scaled
  | 0, d => d
  | fuel + 1, d =>
    if d.digits ≠ 0 ∧ d.digits % 10 = 0 then strip fuel ⟨d.digits / 10, d.exponent + 1⟩ else d

end Scaled

namespace Binary

/-- Whether `d` lies among the reals that round to `x`: between the midpoints
to its two neighbours, which themselves round to `x` when its mantissa is
even. -/
def identifies (x : Binary) (d : Scaled) : Bool :=
  let low := if x.narrowBelow then 4 * x.mantissa - 1 else 4 * x.mantissa - 2
  let high := 4 * x.mantissa + 2
  let closed := x.mantissa % 2 == 0
  let atLow := compareScaled d.digits d.exponent low (x.exponent - 2)
  let atHigh := compareScaled d.digits d.exponent high (x.exponent - 2)
  (atLow == .gt || (closed && atLow == .eq)) && (atHigh == .lt || (closed && atHigh == .eq))

/-- The least `k` with `x < 10 ^ k`, for `x ≠ 0`. The binary logarithm gives
it up to two. -/
def scale (x : Binary) : Int :=
  let guess := ((x.mantissa.log2 : Int) + x.exponent) * 30103 / 100000
  let below (k : Int) := compareScaled 1 k x.mantissa x.exponent == .gt
  if below guess then guess else if below (guess + 1) then guess + 1 else guess + 2

/-- The neighbour of `x` on the multiples of `10 ^ grid` that identifies it. -/
def onGrid (x : Binary) (grid : Int) : Option Scaled :=
  let numerator := x.mantissa * 2 ^ x.exponent.toNat * 10 ^ (-grid).toNat
  let denominator := 2 ^ (-x.exponent).toNat * 10 ^ grid.toNat
  let lower : Scaled := ⟨numerator / denominator, grid⟩
  let upper : Scaled := ⟨numerator / denominator + 1, grid⟩
  match x.identifies lower, x.identifies upper with
  | true, true =>
    if 2 * numerator < (lower.digits + upper.digits) * denominator then some lower else some upper
  | true, false => some lower
  | false, true => some upper
  | false, false => none

def exact (x : Binary) : Scaled :=
  if 0 ≤ x.exponent then ⟨x.mantissa * 2 ^ x.exponent.toNat, 0⟩
  else ⟨x.mantissa * 5 ^ (-x.exponent).toNat, x.exponent⟩

/-- The decimal of fewest digits that identifies `x`. Seventeen digits always
do. -/
def shortest (x : Binary) : Scaled :=
  if x.mantissa = 0 then ⟨0, 0⟩
  else
    let top := x.scale
    let found := (List.range 17).findSome? fun n => x.onGrid (top - (n + 1 : Nat))
    (found.getD x.exact).strip 17

end Binary

end Semidefinite.Decimal
