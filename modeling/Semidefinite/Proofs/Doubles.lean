import Mathlib
import Semidefinite.Proofs.Expr.Zero

/-!
# Sums that start from zero

A total starts from zero, with either sign, and takes over the first number that
is added to it, unless this is a zero as well. So it is with exact numbers and,
bit for bit, with doubles: the sum is packed out of the parts that the number
itself is unpacked into, which is the number again (`Double.pack_unpack`). The
lemmas on packed doubles come with no import but the whole library.
-/

namespace Semidefinite

/-- A number that is added onto a zero of either sign is taken over, unless it equals zero. -/
class LawfulStart (K : Type) [Scalar K] : Prop extends LawfulZero K where
  neg_zero_beq : ((-0 : K) == 0) = true
  zero_add {v : K} : (v == 0) = false → 0 + v = v
  neg_zero_add {v : K} : (v == 0) = false → -0 + v = v

instance : LawfulStart ℚ where
  neg_zero_beq := by decide +kernel
  zero_add _ := Rat.zero_add _
  neg_zero_add {v} _ := (congrArg (· + v) Rat.neg_zero).trans (Rat.zero_add v)

/-- What equals zero keeps to the rules of zero: its negation and its sum with another zero equal
zero, and added to any other number it changes nothing. -/
class LawfulZeros (K : Type) [Scalar K] : Prop extends LawfulStart K where
  neg_beq_zero {v : K} : (v == 0) = true → (-v == 0) = true
  add_beq_zero {u v : K} : (u == 0) = true → (v == 0) = true → (u + v == 0) = true
  add_of_beq_zero {u v : K} : (u == 0) = true → (v == 0) = false → u + v = v

instance : LawfulZeros ℚ where
  neg_beq_zero {v} hv := by
    obtain rfl : v = 0 := beq_iff_eq.1 hv
    decide +kernel
  add_beq_zero {u v} hu hv := by
    obtain rfl : u = 0 := beq_iff_eq.1 hu
    obtain rfl : v = 0 := beq_iff_eq.1 hv
    decide +kernel
  add_of_beq_zero {u v} hu _ := by
    obtain rfl : u = 0 := beq_iff_eq.1 hu
    exact Rat.zero_add v

/-- One times one is one, and one is no zero. -/
class LawfulOne (K : Type) [Scalar K] : Prop extends LawfulStart K where
  one_mul_one : (1 : K) * 1 = 1
  one_beq_one : ((1 : K) == 1) = true
  one_beq_zero : ((1 : K) == 0) = false

theorem LawfulOne.zero_add_one {K : Type} [Scalar K] [LawfulOne K] : (0 : K) + 1 = 1 :=
  LawfulStart.zero_add one_beq_zero

instance : LawfulOne ℚ where
  one_mul_one := Rat.mul_one 1
  one_beq_one := by decide
  one_beq_zero := by decide

/-! ## Doubles -/

namespace Double

open Float.Model

theorem pack_unpack (m : Float.Model) : Float.Model.pack m.unpack = m := by
  obtain ⟨bits, hvalid⟩ := m
  simp only [Float.Model.pack, Float.Model.unpack, UnpackedFloat.pack_unpack_of_valid hvalid]

theorem add_of_zero (sign : UnpackedFloat.Sign) {z v : Float} (hz : z.toModel.unpack = .zero sign)
    (hv : (v == 0) = false) : z + v = v := by
  have hsum : UnpackedFloat.add .binary64 (.zero sign) v.toModel.unpack = v.toModel.unpack := by
    have hv : UnpackedFloat.beq v.toModel.unpack (.zero .positive) = false := hv
    cases hu : v.toModel.unpack with
    | infinity s => rfl
    | notANumber => rfl
    | zero s =>
      rw [hu] at hv
      cases hv
    | finite s m e h => rfl
  show Float.ofModel (Float.Model.pack
    (UnpackedFloat.add .binary64 z.toModel.unpack v.toModel.unpack)) = v
  rw [hz, hsum, pack_unpack]

/-- Only the two zeros equal zero. -/
theorem unpack_of_beq_zero {v : Float} (h : (v == 0) = true) :
    ∃ sign, v.toModel.unpack = .zero sign := by
  have h : UnpackedFloat.beq v.toModel.unpack (.zero .positive) = true := h
  cases hv : v.toModel.unpack with
  | zero sign => exact ⟨sign, rfl⟩
  | notANumber =>
    rw [hv] at h
    cases h
  | infinity sign =>
    rw [hv] at h
    cases sign <;> cases h
  | finite sign m e hm =>
    rw [hv] at h
    cases sign <;> cases h

end Double

instance : LawfulStart Float where
  neg_zero_beq := by decide
  zero_add := Double.add_of_zero .positive rfl
  neg_zero_add := Double.add_of_zero .negative rfl

instance : LawfulZeros Float where
  neg_beq_zero {v} hv := by
    obtain ⟨sign, hv⟩ := Double.unpack_of_beq_zero hv
    show Float.Model.UnpackedFloat.beq (Float.Model.unpack (Float.Model.pack
      (Float.Model.UnpackedFloat.neg v.toModel.unpack))) (.zero .positive) = true
    rw [hv]
    cases sign <;> rfl
  add_beq_zero {u v} hu hv := by
    obtain ⟨sign, hu⟩ := Double.unpack_of_beq_zero hu
    obtain ⟨sign', hv⟩ := Double.unpack_of_beq_zero hv
    show Float.Model.UnpackedFloat.beq (Float.Model.unpack (Float.Model.pack
      (Float.Model.UnpackedFloat.add .binary64 u.toModel.unpack v.toModel.unpack)))
      (.zero .positive) = true
    rw [hu, hv]
    cases sign <;> cases sign' <;> rfl
  add_of_beq_zero {u v} hu hv := by
    obtain ⟨sign, hu⟩ := Double.unpack_of_beq_zero hu
    exact Double.add_of_zero sign hu hv

instance : LawfulOne Float where
  one_mul_one := rfl
  one_beq_one := by decide
  one_beq_zero := by decide

end Semidefinite
