import Semidefinite.Proofs.Doubles

/-!
# Products with one

One times a number is the number, and nothing but one equals one. Of doubles this
holds bit for bit: the mantissa of a product with one has 52 zero bits more, which
rounding shifts out again (`Double.round_shifted`).
-/

namespace Semidefinite

/-- One is neutral, a zero may be added on the right as well, and what equals one is one. -/
class LawfulUnit (K : Type) [Scalar K] : Prop extends LawfulOne K, LawfulZeros K where
  one_mul (v : K) : 1 * v = v
  add_zero {u v : K} : (u == 0) = false → (v == 0) = true → u + v = u
  eq_one {v : K} : (v == 1) = true → v = 1

instance : LawfulUnit ℚ where
  one_mul := Rat.one_mul
  add_zero {u v} _ hv := by
    obtain rfl : v = 0 := beq_iff_eq.1 hv
    exact Rat.add_zero u
  eq_one h := beq_iff_eq.1 h

/-! ## Doubles -/

namespace Double

open Float.Model Float.Model.UnpackedFloat

theorem ext_unpack {u v : Float} (h : u.toModel.unpack = v.toModel.unpack) : u = v := by
  have hmodel : u.toModel = v.toModel := by
    rw [← pack_unpack u.toModel, h, pack_unpack]
  exact congrArg Float.ofModel hmodel

/-- A mantissa and an exponent as they are unpacked: the mantissa has 53 bits, unless the exponent
is the least. -/
structure Canonical (m : Nat) (e : Int) : Prop where
  bits : m < 2 ^ 53
  least : -1074 ≤ e
  full : 2 ^ 52 ≤ m ∨ e = -1074

theorem canonical_unpack {b : BitVec Format.binary64.numBits} {s : Sign} {m : Nat} {e : Int}
    {hm : 0 < m} (h : UnpackedFloat.unpack .binary64 b = .finite s m e hm) : Canonical m e := by
  have hmantissa : (unpackMantissa b).toNat < 2 ^ 52 := (unpackMantissa b).isLt
  unfold UnpackedFloat.unpack at h
  simp only at h
  split at h
  · split at h <;> cases h
  · split at h
    · -- a subnormal number
      rename_i hexponent
      split at h
      · cases h
      · cases h
        rw [hexponent]
        exact ⟨by omega, by decide, .inr rfl⟩
    · -- a normal number, with the leading bit put in front
      rename_i hexponent
      have hpos : 0 < (unpackExponent b).toNat :=
        Nat.pos_of_ne_zero fun hzero => hexponent (BitVec.eq_of_toNat_eq hzero)
      have hfront : (1#1 ++ unpackMantissa b).toNat = 2 ^ 52 + (unpackMantissa b).toNat := by
        rw [BitVec.toNat_append, ← Nat.shiftLeft_add_eq_or_of_lt (BitVec.isLt _)]
        rfl
      have hleast : -1074 ≤ ((unpackExponent b).toNat : Int) - (1023 + 52) := by omega
      cases h
      exact ⟨by omega, hleast, .inl (by omega)⟩

/-- The exponent is the one that rounding aims at. -/
theorem Canonical.targetExponent_eq {m : Nat} {e : Int} (h : Canonical m e) (hm : 0 < m) :
    Format.binary64.targetExponent (totalExponent m e) = e := by
  have hlog : m.log2 < 53 := (Nat.log2_lt hm.ne').2 h.bits
  have hleast := h.least
  show max ((m.log2 : Int) + 1 + e - 53) (-1074) = e
  rcases h.full with hfull | rfl
  · have hlog' : 52 ≤ m.log2 := (Nat.le_log2 hm.ne').2 hfull
    omega
  · omega

/-- Zero bits are shifted out without a trace. -/
theorem shiftRight_mul (k m : Nat) :
    (⟨2 ^ k * m, false, false⟩ : ExtendedMantissa) >>> k = ⟨m, false, false⟩ := by
  show Nat.repeat ExtendedMantissa.shiftRightOne k _ = _
  induction k generalizing m with
  | zero => rw [pow_zero, one_mul]; rfl
  | succ k ih =>
    rw [Nat.repeat, pow_succ, mul_assoc, ih (2 * m)]
    simp [ExtendedMantissa.shiftRightOne]

theorem log2_two_pow_mul (k : Nat) {m : Nat} (hm : 0 < m) : (2 ^ k * m).log2 = m.log2 + k := by
  induction k with
  | zero => rw [pow_zero, one_mul, Nat.add_zero]
  | succ k ih =>
    have hpos : 0 < 2 ^ k * m := Nat.mul_pos (Nat.two_pow_pos k) hm
    rw [pow_succ', mul_assoc, Nat.log2_two_mul hpos.ne', ih, Nat.add_assoc]

/-- Shifting to the exponent that rounding aims at takes out the zero bits. -/
theorem Canonical.shift_eq {m : Nat} {e : Int} (h : Canonical m e) (hm : 0 < m) (k : Nat) :
    shiftToTargetExponent .binary64 (2 ^ k * m) (e - k) .exact = (⟨m, false, false⟩, e) := by
  have htotal : totalExponent (2 ^ k * m) (e - k) = totalExponent m e := by
    unfold totalExponent
    rw [log2_two_pow_mul k hm]
    push_cast
    omega
  have hamount : (e - (e - k)).toNat = k := by omega
  unfold shiftToTargetExponent shiftToExponent
  rw [htotal, h.targetExponent_eq hm]
  simp only [hamount, ExtendedMantissa.ofMantissaAndAccuracy]
  rw [shiftRight_mul]
  simp

/-- Rounding takes out zero bits and nothing else. -/
theorem round_shifted (s : Sign) {m : Nat} {e : Int} (h : Canonical m e) (hm : 0 < m) (k : Nat) :
    roundWithAccuracy .binary64 s (2 ^ k * m) (e - k) .exact = .finite s m e hm := by
  have hagain := h.shift_eq hm 0
  rw [pow_zero, one_mul, Nat.cast_zero, sub_zero] at hagain
  unfold roundWithAccuracy
  simp only [h.shift_eq hm k]
  have hrounded : (⟨m, false, false⟩ : ExtendedMantissa).roundedMantissa = m := rfl
  simp only [hrounded, hagain]
  exact dif_neg hm.ne'

theorem unpack_one :
    (1 : Float).toModel.unpack = .finite .positive (2 ^ 52) (-52) (by decide) := rfl

theorem positive_mul (s : Sign) : Sign.positive * s = s := by
  cases s <;> rfl

theorem unpacked_one_mul (v : Float) :
    UnpackedFloat.mul .binary64 (1 : Float).toModel.unpack v.toModel.unpack = v.toModel.unpack := by
  rw [unpack_one]
  cases hv : v.toModel.unpack with
  | notANumber => rfl
  | infinity s => exact congrArg UnpackedFloat.infinity (positive_mul s)
  | zero s => exact congrArg UnpackedFloat.zero (positive_mul s)
  | finite s m e hm =>
    have hround := round_shifted s (canonical_unpack hv) hm 52
    show roundWithAccuracy .binary64 (.positive * s) (2 ^ 52 * m) (-52 + e) .exact = _
    rw [positive_mul, Int.add_comm]
    exact hround

theorem one_mul (v : Float) : 1 * v = v := by
  show Float.ofModel (Float.Model.pack
    (UnpackedFloat.mul .binary64 (1 : Float).toModel.unpack v.toModel.unpack)) = v
  rw [unpacked_one_mul, pack_unpack]

theorem add_zero (sign : Sign) {u z : Float} (hu : (u == 0) = false)
    (hz : z.toModel.unpack = .zero sign) : u + z = u := by
  have hsum : UnpackedFloat.add .binary64 u.toModel.unpack (.zero sign) = u.toModel.unpack := by
    have hu : UnpackedFloat.beq u.toModel.unpack (.zero .positive) = false := hu
    cases hparts : u.toModel.unpack with
    | infinity s => rfl
    | notANumber => rfl
    | zero s =>
      rw [hparts] at hu
      cases hu
    | finite s m e h => rfl
  show Float.ofModel (Float.Model.pack
    (UnpackedFloat.add .binary64 u.toModel.unpack z.toModel.unpack)) = u
  rw [hz, hsum, pack_unpack]

theorem eq_one {v : Float} (h : (v == 1) = true) : v = 1 := by
  have h : UnpackedFloat.beq v.toModel.unpack
      (.finite .positive (2 ^ 52) (-52) (by decide)) = true := h
  refine ext_unpack (unpack_one ▸ ?_)
  cases hv : v.toModel.unpack with
  | notANumber =>
    rw [hv] at h
    cases h
  | infinity s =>
    rw [hv] at h
    cases s <;> cases h
  | zero s =>
    rw [hv] at h
    cases h
  | finite s m e hm =>
    rw [hv] at h
    cases s with
    | negative => cases h
    | positive =>
      have hcompare : (compare e (-52)).then (compare m (2 ^ 52)) = .eq := by
        simpa [UnpackedFloat.beq, UnpackedFloat.compare] using h
      obtain ⟨he, hm⟩ := Ordering.then_eq_eq.1 hcompare
      obtain rfl : e = -52 := compare_eq_iff_eq.1 he
      obtain rfl : m = 2 ^ 52 := compare_eq_iff_eq.1 hm
      rfl

end Double

instance : LawfulUnit Float where
  one_mul := Double.one_mul
  add_zero hu hv := by
    obtain ⟨sign, hv⟩ := Double.unpack_of_beq_zero hv
    exact Double.add_zero sign hu hv
  eq_one := Double.eq_one

end Semidefinite
