import Semidefinite.Proofs.Units

/-!
# The order of doubles

Doubles other than NaN are compared by their place on one line: negative numbers,
both zeros in one place, positive numbers, with the infinities at the ends
(`Double.compare_eq_place`). So the comparisons are those of a linear order, but that
the two zeros are one number (`Double.SameNumber`).
-/

namespace Semidefinite.Double

open Float.Model Float.Model.UnpackedFloat

/-! ## Places -/

/-- Where a number stands: by its sign, and among finite numbers of one sign by exponent and
mantissa. -/
def place : UnpackedFloat → ℤ ×ₗ ℤ ×ₗ ℤ
  | .infinity .positive => toLex (2, toLex (0, 0))
  | .finite .positive m e _ => toLex (1, toLex (e, (m : ℤ)))
  | .zero _ | .notANumber => toLex (0, toLex (0, 0))
  | .finite .negative m e _ => toLex (-1, toLex (-e, -(m : ℤ)))
  | .infinity .negative => toLex (-2, toLex (0, 0))

theorem compare_natCast (m n : ℕ) : compare (m : ℤ) (n : ℤ) = compare m n := by
  rw [← cmp_eq_compare, ← cmp_eq_compare]
  exact (Nat.strictMono_cast (α := ℤ)).cmp_map_eq m n

theorem compare_neg (a b : ℤ) : compare (-a) (-b) = (compare a b).swap := by
  rw [Int.compare_swap, ← cmp_eq_compare, ← cmp_eq_compare]
  exact StrictAnti.cmp_map_eq (fun _ _ h => neg_lt_neg h) a b

/-- Places of one sign are compared by exponent and mantissa. -/
theorem compare_place (s e m e' m' : ℤ) :
    compare (toLex (s, toLex (e, m)) : ℤ ×ₗ ℤ ×ₗ ℤ) (toLex (s, toLex (e', m'))) =
      (compare e e').then (compare m m') := by
  show (compare s s).then ((compare e e').then (compare m m')) = _
  rw [compare_eq_iff_eq.2 (rfl : s = s)]
  rfl

theorem compare_eq_place {u v : UnpackedFloat} (hu : u.isNaN = false) (hv : v.isNaN = false) :
    u.compare v = some (compare (place u) (place v)) := by
  cases u with
  | notANumber => cases hu
  | infinity s =>
    cases v with
    | notANumber => cases hv
    | infinity t => cases s <;> cases t <;> rfl
    | zero t => cases s <;> rfl
    | finite t m e hm => cases s <;> cases t <;> rfl
  | zero s =>
    cases v with
    | notANumber => cases hv
    | infinity t => cases t <;> rfl
    | zero t => rfl
    | finite t m e hm => cases t <;> rfl
  | finite s m e hm =>
    cases v with
    | notANumber => cases hv
    | infinity t => cases s <;> cases t <;> rfl
    | zero t => cases s <;> rfl
    | finite t m' e' hm' =>
      cases s <;> cases t
      case negative.negative =>
        simp only [UnpackedFloat.compare, place, compare_place, compare_neg, compare_natCast,
          Ordering.swap_then]
      case positive.positive =>
        simp only [UnpackedFloat.compare, place, compare_place, compare_natCast]
      all_goals rfl

/-- Only the two zeros share a place. -/
theorem eq_or_zeros_of_place {u v : UnpackedFloat} (hu : u.isNaN = false) (hv : v.isNaN = false)
    (h : place u = place v) : u = v ∨ (∃ s, u = .zero s) ∧ ∃ t, v = .zero t := by
  cases u with
  | notANumber => cases hu
  | infinity s =>
    cases v with
    | notANumber => cases hv
    | infinity t =>
      cases s <;> cases t
      case negative.negative | positive.positive => exact .inl rfl
      all_goals cases h
    | zero t => cases s <;> cases h
    | finite t m e hm => cases s <;> cases t <;> cases h
  | zero s =>
    cases v with
    | notANumber => cases hv
    | infinity t => cases t <;> cases h
    | zero t => exact .inr ⟨⟨s, rfl⟩, t, rfl⟩
    | finite t m e hm => cases t <;> cases h
  | finite s m e hm =>
    cases v with
    | notANumber => cases hv
    | infinity t => cases s <;> cases t <;> cases h
    | zero t => cases s <;> cases h
    | finite t m' e' hm' =>
      have hparts : ∀ {s s' e e' m m' : ℤ},
          (toLex (s, toLex (e, m)) : ℤ ×ₗ ℤ ×ₗ ℤ) = toLex (s', toLex (e', m')) →
            s = s' ∧ e = e' ∧ m = m' := by
        intro s s' e e' m m' heq
        cases heq
        exact ⟨rfl, rfl, rfl⟩
      cases s <;> cases t <;> obtain ⟨hs, he, hm⟩ := hparts h
      case negative.negative =>
        obtain rfl : e = e' := neg_inj.1 he
        obtain rfl : m = m' := Nat.cast_injective (neg_inj.1 hm)
        exact .inl rfl
      case positive.positive =>
        obtain rfl : e = e' := he
        obtain rfl : m = m' := Nat.cast_injective hm
        exact .inl rfl
      all_goals cases hs

/-! ## Comparing doubles -/

def position (a : Float) : ℤ ×ₗ ℤ ×ₗ ℤ :=
  place a.toModel.unpack

section Compare
variable {a b : Float} (ha : a.isNaN = false) (hb : b.isNaN = false)
include ha hb

theorem lt_iff : a < b ↔ position a < position b := by
  show decide ((a.toModel.unpack.compare b.toModel.unpack == some .lt) = true) = true ↔ _
  rw [compare_eq_place ha hb, decide_eq_true_iff, beq_iff_eq, Option.some.injEq]
  exact compare_lt_iff_lt

theorem le_iff : a ≤ b ↔ position a ≤ position b := by
  show decide ((a.toModel.unpack.compare b.toModel.unpack).any (·.isLE) = true) = true ↔ _
  rw [compare_eq_place ha hb, decide_eq_true_iff]
  exact Ordering.isLE_iff_ne_gt.trans compare_le_iff_le

theorem le_of_not_lt (h : ¬ a < b) : b ≤ a := by
  rw [lt_iff ha hb, not_lt] at h
  exact (le_iff hb ha).2 h

theorem le_of_lt (h : a < b) : a ≤ b :=
  (le_iff ha hb).2 ((lt_iff ha hb).1 h).le

end Compare

theorem le_refl {a : Float} (ha : a.isNaN = false) : a ≤ a :=
  (le_iff ha ha).2 le_rfl

theorem le_trans {a b c : Float} (ha : a.isNaN = false) (hb : b.isNaN = false)
    (hc : c.isNaN = false) (hab : a ≤ b) (hbc : b ≤ c) : a ≤ c :=
  (le_iff ha hc).2 (((le_iff ha hb).1 hab).trans ((le_iff hb hc).1 hbc))

theorem isNaN_eq_false_of_pos {a : Float} (h : 0 < a) : a.isNaN = false := by
  have h : decide (((0 : Float).toModel.unpack.compare a.toModel.unpack == some .lt) = true) =
      true := h
  show a.toModel.unpack.isNaN = false
  cases hu : a.toModel.unpack with
  | notANumber =>
    rw [hu] at h
    cases h
  | _ => rfl

theorem not_infinity_lt (a : Float) : ¬ (1.0 / 0.0 : Float) < a := by
  have hinfinity : (1.0 / 0.0 : Float).toModel.unpack = .infinity .positive := rfl
  show ¬ decide (((1.0 / 0.0 : Float).toModel.unpack.compare a.toModel.unpack == some .lt) = true) =
    true
  rw [hinfinity, decide_eq_true_iff]
  cases a.toModel.unpack with
  | infinity s => cases s <;> exact Bool.false_ne_true
  | _ => exact Bool.false_ne_true

/-! ## One number -/

/-- The same double, or a zero each. -/
def SameNumber (a b : Float) : Prop :=
  a = b ∨ (a == 0) = true ∧ (b == 0) = true

theorem SameNumber.of_le {a b : Float} (ha : a.isNaN = false) (hb : b.isNaN = false) (hab : a ≤ b)
    (hba : b ≤ a) : SameNumber a b := by
  have hposition : position a = position b :=
    le_antisymm ((le_iff ha hb).1 hab) ((le_iff hb ha).1 hba)
  rcases eq_or_zeros_of_place ha hb hposition with heq | ⟨⟨s, hs⟩, t, ht⟩
  · exact .inl (ext_unpack heq)
  · have hzero : ∀ {z : Float} {s : Sign}, z.toModel.unpack = .zero s → (z == 0) = true := by
      intro z s hz
      show UnpackedFloat.beq z.toModel.unpack (.zero .positive) = true
      rw [hz]
      rfl
    exact .inr ⟨hzero hs, hzero ht⟩

theorem beq_zero_of_pos {a : Float} (h : 0 < a) : (a == 0) = false := by
  by_contra hzero
  obtain ⟨s, hs⟩ := unpack_of_beq_zero (Bool.of_not_eq_false hzero)
  have h : decide (((0 : Float).toModel.unpack.compare a.toModel.unpack == some .lt) = true) =
      true := h
  rw [hs] at h
  cases h

theorem SameNumber.eq_of_pos {a b : Float} (h : SameNumber a b) (ha : 0 < a) : a = b := by
  rcases h with heq | ⟨hzero, -⟩
  · exact heq
  · rw [beq_zero_of_pos ha] at hzero
    cases hzero

theorem div_beq_zero {a d : Float} (ha : (a == 0) = true) (hd : 0 < d) : (a / d == 0) = true := by
  obtain ⟨s, hs⟩ := unpack_of_beq_zero ha
  have hquotient : ∃ t, UnpackedFloat.div .binary64 (.zero s) d.toModel.unpack = .zero t := by
    have hNaN : d.toModel.unpack.isNaN = false := isNaN_eq_false_of_pos hd
    have hzero : d.toModel.unpack.beq (.zero .positive) = false := beq_zero_of_pos hd
    cases hu : d.toModel.unpack with
    | notANumber =>
      rw [hu] at hNaN
      cases hNaN
    | zero t =>
      rw [hu] at hzero
      cases hzero
    | infinity t => exact ⟨s / t, rfl⟩
    | finite t m e hm => exact ⟨s / t, rfl⟩
  obtain ⟨t, ht⟩ := hquotient
  show UnpackedFloat.beq (Float.Model.unpack (Float.Model.pack
    (UnpackedFloat.div .binary64 a.toModel.unpack d.toModel.unpack))) (.zero .positive) = true
  rw [hs, ht]
  cases t <;> rfl

theorem SameNumber.div {a b d : Float} (h : SameNumber a b) (hd : 0 < d) :
    SameNumber (a / d) (b / d) := by
  rcases h with rfl | ⟨ha, hb⟩
  · exact .inl rfl
  · exact .inr ⟨div_beq_zero ha hd, div_beq_zero hb hd⟩

end Semidefinite.Double
