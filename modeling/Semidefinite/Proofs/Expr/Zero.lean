import Mathlib.Algebra.Ring.Rat
import Semidefinite.Expr.Basic

/-!
# The literal zero

The constructors fold the literal zero back to itself: its negation and its
difference with itself are the literal zero. The laws that this rests on hold of
doubles as well as of exact numbers.
-/

namespace Semidefinite

/-- Zero equals itself, also with the other sign and added to itself. -/
class LawfulZero (K : Type) [Scalar K] : Prop where
  zero_beq : ((0 : K) == 0) = true
  neg_beq : ((1 : K) * -1 * 0 == 0) = true
  add_beq : ((0 : K) + 0 + 0 == 0) = true

instance : LawfulZero ℚ where
  zero_beq := by decide
  neg_beq := by decide +kernel
  add_beq := by decide +kernel

instance : LawfulZero Float where
  zero_beq := by decide
  neg_beq := by decide
  add_beq := by decide

namespace Expr

variable {K : Type} [Scalar K] [LawfulZero K]

theorem isZero_zero : (zero : Expr K).isZero = true :=
  LawfulZero.zero_beq

theorem negate_zero : (zero : Expr K).negate = zero := by
  have hcoefficient : (([const (-1), const 0].filterMap constant?).foldl (· * ·) (1 : K) == 0) =
      true := LawfulZero.neg_beq
  simp only [negate, productOf, factorsList, factors, zero, List.cons_append, List.nil_append]
  exact if_pos hcoefficient

theorem zero_sub_zero : (zero - zero : Expr K) = zero := by
  have htotal : (([const 0, const 0].filterMap constant?).foldl (· + ·) (0 : K) == 0) = true :=
    LawfulZero.add_beq
  rw [show (zero - zero : Expr K) = sumOf [zero, zero.negate] from rfl, negate_zero]
  simp only [sumOf, summandsList, summands, zero, List.cons_append, List.nil_append, bne, htotal]
  rfl

end Expr

end Semidefinite
