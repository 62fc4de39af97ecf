/-!
# Binary floating-point values taken apart

`Reading.ofFloat` splits the bits of a double into its sign and the exact
value `mantissa * 2 ^ exponent`, or says that it has none. Everything that
writes a number in decimal starts from this value and works in `Nat`.
-/

namespace Semidefinite.Decimal

-- powers of natural numbers are those of the core library, whatever else is imported
attribute [local instance (high)] instPowNat

/-- The magnitude `mantissa * 2 ^ exponent` of a finite double. -/
structure Binary where
  mantissa : Nat
  exponent : Int
  /-- The double below is half as far away as the double above. -/
  narrowBelow : Bool
  deriving DecidableEq, Repr

/-- What the bits of a double stand for. -/
inductive Reading where
  | nan
  | infinite (negative : Bool)
  | finite (negative : Bool) (magnitude : Binary)
  deriving DecidableEq, Repr

namespace Reading

/-- The reading of a 64-bit pattern: one sign bit, eleven of exponent, 52 of
fraction. The exponent 0 marks the subnormal numbers, 2047 the values that are
no numbers. -/
def ofBits (bits : UInt64) : Reading :=
  let negative := bits >>> 63 != 0
  let field := ((bits >>> 52) &&& 0x7FF).toNat
  let fraction := (bits &&& 0xFFFFFFFFFFFFF).toNat
  if field = 2047 then
    if fraction = 0 then infinite negative else nan
  else if field = 0 then
    finite negative ⟨fraction, -1074, false⟩
  else
    finite negative ⟨0x10000000000000 + fraction, (field : Int) - 1075, fraction == 0 && decide (1 < field)⟩

def ofFloat (x : Float) : Reading :=
  ofBits x.toBits

end Reading

namespace Binary

/-- The value as a quotient of two naturals. -/
def quotient (x : Binary) : Nat × Nat :=
  (x.mantissa * 2 ^ x.exponent.toNat, 2 ^ (-x.exponent).toNat)

end Binary

end Semidefinite.Decimal
