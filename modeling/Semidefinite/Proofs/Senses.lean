import Semidefinite.Proofs.Problem

/-!
# The two senses of an objective

To maximize is to minimize the negation, and the two are read in different ways:
the terms of a sum are merged as they stand, while the negation of a sum is one
product, which has to be multiplied out. Whatever the objective is, one of the
two targets has a single summand (`exists_keysFaithful_target`) and is read as
the polynomial it denotes. So the senses agree exactly if both are read so.
-/

namespace Semidefinite

open MvPolynomial

theorem AffineIn.neg {vars : List Symbol} {p : MvPolynomial Symbol ℚ} (h : AffineIn vars p) :
    AffineIn vars (-p) := by
  intro d hd
  rw [support_neg] at hd
  exact h d hd

namespace Expr

theorem keysFaithful_singleton (e : Expr ℚ) : KeysFaithful [e] := by
  intro t ht u hu _ _ _
  rw [List.mem_singleton.1 ht, List.mem_singleton.1 hu]

theorem negate_sum (ts : List (Expr ℚ)) : (sum ts).negate = product [const (-1), sum ts] := by
  have hfactors : factorsList [const (-1), sum ts] = [const (-1), sum ts] := by
    simp [factorsList, factors]
  have hcoefficient : productCoefficient [const (-1), sum ts] = -1 := by
    rw [productCoefficient, hfactors]
    exact one_mul _
  have hitems : productItems [const (-1), sum ts] = [const (-1), sum ts] := by
    rw [productItems, hcoefficient, hfactors]
    rfl
  rw [negate, productOf_of_two (by simp [hcoefficient]) (by simp [hitems]), hitems]

end Expr

namespace Sense

theorem poly_target_maximize (objective : Expr ℚ) :
    (maximize.target objective).poly = -(minimize.target objective).poly :=
  Expr.eval_negate _ objective

theorem affineIn_target_iff {objective : Expr ℚ} {vars : List Symbol} :
    AffineIn vars (maximize.target objective).poly ↔
      AffineIn vars (minimize.target objective).poly := by
  rw [poly_target_maximize]
  refine ⟨fun h => ?_, AffineIn.neg⟩
  rw [← neg_neg (minimize.target objective).poly]
  exact h.neg

/-- One of the two targets has a single summand, which is confused with no other. -/
theorem exists_keysFaithful_target (objective : Expr ℚ) :
    ∃ sense : Sense, Expr.KeysFaithful (sense.target objective).summands := by
  cases objective with
  | sum ts =>
    refine ⟨maximize, ?_⟩
    rw [target, Expr.negate_sum, Expr.summands_eq_self (by simp)]
    exact Expr.keysFaithful_singleton _
  | _ => exact ⟨minimize, Expr.keysFaithful_singleton _⟩

/-! ## What is read -/

section Read
variable (objective : Expr ℚ) (vars : List Symbol) (supply : Sense → NonceSupply)

/-- The objective has these coefficients in a sense. -/
def Reads (sense : Sense) (coefficients : List ℚ) : Prop :=
  ((objectiveCoefficients objective vars sense).run (supply sense)).1 = .ok coefficients

/-- The coefficients of the polynomial of a target. -/
noncomputable def exactCoefficients (sense : Sense) : List ℚ :=
  vars.map fun v => (sense.target objective).poly.coeff (Finsupp.single v 1)

/-- There are coefficients exactly if the polynomial is affine, and they are its own. -/
structure ReadsExactly (sense : Sense) : Prop where
  accepts : (∃ coefficients, sense.Reads objective vars supply coefficients) ↔
    AffineIn vars (sense.target objective).poly
  reads : ∀ coefficients, sense.Reads objective vars supply coefficients →
    coefficients = sense.exactCoefficients objective vars

/-- There are coefficients in both senses or in neither, and those to maximize are the negations
of those to minimize, index by index. -/
structure Agree : Prop where
  accepts : (∃ greatest, maximize.Reads objective vars supply greatest) ↔
    ∃ least, minimize.Reads objective vars supply least
  negates : ∀ greatest least, maximize.Reads objective vars supply greatest →
    minimize.Reads objective vars supply least → greatest = least.map (-·)

variable {objective vars supply} {sense : Sense}

theorem exactCoefficients_maximize :
    maximize.exactCoefficients objective vars =
      (minimize.exactCoefficients objective vars).map (-·) := by
  rw [exactCoefficients, exactCoefficients, List.map_map]
  refine List.map_congr_left fun v _ => ?_
  rw [poly_target_maximize, coeff_neg, Function.comp_apply]

theorem reads_iff {coefficients : List ℚ} :
    sense.Reads objective vars supply coefficients ↔
      ∃ form, LinearForm.ofExpr (supply sense).peek (sense.target objective) vars = .ok form ∧
        form.coefficients = coefficients := by
  unfold Reads
  refine ⟨fun h => ?_, ?_⟩
  · obtain ⟨form, hform, hcoefficients, -⟩ := run_objectiveCoefficients_eq_ok.1 (Prod.ext h rfl)
    exact ⟨form, hform, hcoefficients⟩
  · rintro ⟨form, hform, hcoefficients⟩
    exact congrArg Prod.fst (run_objectiveCoefficients_eq_ok.2 ⟨form, hform, hcoefficients, rfl⟩)

theorem reads_of_toOption {coefficients : List ℚ}
    (h : ((objectiveCoefficients objective vars sense).run (supply sense)).1.toOption =
      some coefficients) : sense.Reads objective vars supply coefficients := by
  unfold Reads
  cases hrun : ((objectiveCoefficients objective vars sense).run (supply sense)).1 with
  | ok found =>
    rw [hrun] at h
    cases h
    rfl
  | error cause =>
    rw [hrun] at h
    cases h

/-- A target whose summands are told apart is read as its polynomial. -/
theorem readsExactly_of_keysFaithful (hvars : (supply sense).peek ∉ vars)
    (hoccurs : (supply sense).peek ∉ objective.occurrences)
    (hkeys : Expr.KeysFaithful (sense.target objective).summands) :
    sense.ReadsExactly objective vars supply := by
  have htarget : (supply sense).peek ∉ (sense.target objective).occurrences :=
    fun hs => hoccurs (mem_occurrences_target hs)
  refine ⟨⟨?_, fun haffine => ?_⟩, fun coefficients hread => ?_⟩
  · rintro ⟨coefficients, hread⟩
    obtain ⟨form, hform, -⟩ := reads_iff.1 hread
    exact (LinearForm.ofExpr_eq_ok hvars htarget hkeys hform).1
  · cases hform : LinearForm.ofExpr (supply sense).peek (sense.target objective) vars with
    | ok form => exact ⟨form.coefficients, reads_iff.2 ⟨form, hform, rfl⟩⟩
    | error cause => exact absurd haffine (LinearForm.ofExpr_eq_error htarget hform).1
  · obtain ⟨form, hform, rfl⟩ := reads_iff.1 hread
    obtain ⟨-, rfl⟩ := LinearForm.ofExpr_eq_ok hvars htarget hkeys hform
    rfl

/-! ## Agreement -/

theorem agree_of_readsExactly (h : ∀ sense : Sense, sense.ReadsExactly objective vars supply) :
    Agree objective vars supply := by
  refine ⟨?_, fun greatest least hgreatest hleast => ?_⟩
  · rw [(h maximize).accepts, (h minimize).accepts, affineIn_target_iff]
  · rw [(h maximize).reads _ hgreatest, (h minimize).reads _ hleast, exactCoefficients_maximize]

theorem Agree.readsExactly_iff (h : Agree objective vars supply) :
    maximize.ReadsExactly objective vars supply ↔ minimize.ReadsExactly objective vars supply := by
  constructor
  · intro hmax
    refine ⟨by rw [← h.accepts, hmax.accepts, affineIn_target_iff], fun least hleast => ?_⟩
    obtain ⟨greatest, hgreatest⟩ := h.accepts.2 ⟨least, hleast⟩
    have hneg := h.negates greatest least hgreatest hleast
    rw [hmax.reads _ hgreatest, exactCoefficients_maximize] at hneg
    exact (List.map_injective_iff.2 neg_injective hneg).symm
  · intro hmin
    refine ⟨by rw [h.accepts, hmin.accepts, affineIn_target_iff], fun greatest hgreatest => ?_⟩
    obtain ⟨least, hleast⟩ := h.accepts.1 ⟨greatest, hgreatest⟩
    rw [h.negates greatest least hgreatest hleast, hmin.reads _ hleast, exactCoefficients_maximize]

theorem Agree.readsExactly (h : Agree objective vars supply)
    (hone : ∃ sense : Sense, sense.ReadsExactly objective vars supply) (sense : Sense) :
    sense.ReadsExactly objective vars supply := by
  obtain ⟨one, hone⟩ := hone
  cases one <;> cases sense
  · exact hone
  · exact h.readsExactly_iff.2 hone
  · exact h.readsExactly_iff.1 hone
  · exact hone

end Read

/-- Maximizing is minimizing the negation exactly where both senses are read as the polynomials
of their targets, as one of them always is. They are so wherever the summands of the targets are
told apart. -/
theorem agree_iff_readsExactly (objective : Expr ℚ) (vars : List Symbol)
    (supply : Sense → NonceSupply) (hvars : ∀ sense, (supply sense).peek ∉ vars)
    (hoccurs : ∀ sense, (supply sense).peek ∉ objective.occurrences) :
    (∃ sense : Sense, sense.ReadsExactly objective vars supply) ∧
    (Agree objective vars supply ↔ ∀ sense : Sense, sense.ReadsExactly objective vars supply) ∧
    ((∀ sense : Sense, Expr.KeysFaithful (sense.target objective).summands) →
      Agree objective vars supply) := by
  have hexact : ∀ sense : Sense, Expr.KeysFaithful (sense.target objective).summands →
      sense.ReadsExactly objective vars supply := fun sense hkeys =>
    readsExactly_of_keysFaithful (hvars sense) (hoccurs sense) hkeys
  obtain ⟨one, hone⟩ := exists_keysFaithful_target objective
  have hone : ∃ sense : Sense, sense.ReadsExactly objective vars supply :=
    ⟨one, hexact one hone⟩
  refine ⟨hone, ⟨fun hagree => hagree.readsExactly hone, agree_of_readsExactly⟩, fun hkeys => ?_⟩
  exact agree_of_readsExactly fun sense => hexact sense (hkeys sense)

/-- `2 * (x + 1) + -1 * y + 3`, whose terms are not affine as they stand. -/
theorem agree_iff_readsExactly_of_products :
    let x : Symbol := { name := "x" }
    let y : Symbol := { name := "y" }
    let objective : Expr ℚ := .sum [.product [.const 2, .sum [.symbol x, .const 1]],
      .product [.const (-1), .symbol y], .const 3]
    let supply : Sense → NonceSupply
      | minimize => .first
      | maximize => NonceSupply.first.advance 1
    (∀ sense, (supply sense).peek ∉ [x, y]) ∧
    (∀ sense, (supply sense).peek ∉ objective.occurrences) ∧
    (∀ sense : Sense, Expr.KeysFaithful (sense.target objective).summands) ∧
    (∃ sense : Sense, sense.ReadsExactly objective [x, y] supply) ∧
    (Agree objective [x, y] supply ↔
      ∀ sense : Sense, sense.ReadsExactly objective [x, y] supply) ∧
    ((∀ sense : Sense, Expr.KeysFaithful (sense.target objective).summands) →
      Agree objective [x, y] supply) := by
  intro x y objective supply
  have hvars : ∀ sense, (supply sense).peek ∉ [x, y] := by
    intro sense
    cases sense <;> decide
  have hoccurs : ∀ sense, (supply sense).peek ∉ objective.occurrences := by
    intro sense
    cases sense <;> decide
  have hkeys : ∀ sense : Sense, Expr.KeysFaithful (sense.target objective).summands := by
    intro sense
    refine Expr.keysFaithful_of_nodup ?_
    cases sense <;> decide +kernel
  exact ⟨hvars, hoccurs, hkeys, agree_iff_readsExactly objective [x, y] supply hvars hoccurs⟩

/-- Where a symbol is written like the product of two others, an objective is read to minimize
and refused to maximize. Where an empty product is written like an empty sum, both senses have
coefficients, and they are no negations of each other. -/
theorem disagree_of_unlike_terms :
    let x : Symbol := { name := "x" }
    let a : Symbol := { name := "a" }
    let b : Symbol := { name := "b" }
    let ab : Symbol := { name := "a*b" }
    let named : Expr ℚ := .sum [.product [.sum [.const 1, .symbol x], .symbol ab],
      .product [.const (-1), .sum [.const 1, .symbol x], .symbol a, .symbol b]]
    let empty : Expr ℚ := .sum [.product [.symbol x, .sum [.symbol a, .sum []]],
      .product [.const (-1), .symbol x, .sum [.symbol a, .product []]]]
    let supply : Sense → NonceSupply
      | minimize => .first
      | maximize => NonceSupply.first.advance 1
    (minimize.Reads named [x] supply [0] ∧ ∀ greatest, ¬ maximize.Reads named [x] supply greatest) ∧
    (minimize.Reads empty [x] supply [0] ∧ maximize.Reads empty [x] supply [1]) ∧
    ¬ Agree named [x] supply ∧ ¬ Agree empty [x] supply := by
  intro x a b ab named empty supply
  have hnamed : minimize.Reads named [x] supply [0] := reads_of_toOption (by decide +kernel)
  have hrefused : ∀ greatest, ¬ maximize.Reads named [x] supply greatest := by
    have hnone : ((objectiveCoefficients named [x] maximize).run
        (supply maximize)).1.toOption = none := by decide +kernel
    intro greatest hread
    rw [hread] at hnone
    cases hnone
  have hleast : minimize.Reads empty [x] supply [0] := reads_of_toOption (by decide +kernel)
  have hgreatest : maximize.Reads empty [x] supply [1] := reads_of_toOption (by decide +kernel)
  refine ⟨⟨hnamed, hrefused⟩, ⟨hleast, hgreatest⟩, fun hagree => ?_, fun hagree => ?_⟩
  · obtain ⟨greatest, hread⟩ := hagree.accepts.2 ⟨_, hnamed⟩
    exact hrefused greatest hread
  · have hneg := hagree.negates _ _ hgreatest hleast
    simp at hneg

end Sense

end Semidefinite
