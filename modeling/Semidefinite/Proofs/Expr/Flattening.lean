import Semidefinite.Proofs.Expr.Value
import Semidefinite.Proofs.Units

/-!
# Sums and products taken apart again

What the constructors have flattened is flat: the summands of a normalised sum are
the items that it was built of (`sumItems_sumOf`), and a normalised product that is
not zero has the coefficient and the other factors of its arguments
(`productOf_parts`). The laws of zero and one are enough for this.
-/

namespace Semidefinite.Expr

variable {K : Type}

theorem filterMap_cons_const (c : K) (ts : List (Expr K)) :
    (const c :: ts).filterMap constant? = c :: ts.filterMap constant? := rfl

theorem filterMap_withoutConstants (ts : List (Expr K)) :
    (withoutConstants ts).filterMap constant? = [] := by
  rw [List.filterMap_eq_nil_iff]
  exact fun t ht => (mem_withoutConstants.1 ht).2

theorem withoutConstants_idem (ts : List (Expr K)) :
    withoutConstants (withoutConstants ts) = withoutConstants ts := by
  unfold withoutConstants
  rw [List.filter_filter]
  simp only [Bool.and_self]

variable [Scalar K]

/-! ## Sums -/

/-- The constant of `sumOf ts`. -/
def sumConstant (ts : List (Expr K)) : K :=
  ((summandsList ts).filterMap constant?).foldl (· + ·) 0

/-- The summands of `sumOf ts` that are no numbers. -/
def otherSummands (ts : List (Expr K)) : List (Expr K) :=
  withoutConstants (summandsList ts)

theorem sumItems_eq (ts : List (Expr K)) :
    sumItems ts = if sumConstant ts != 0 then const (sumConstant ts) :: otherSummands ts
      else otherSummands ts := rfl

theorem ne_sum_of_mem_sumItems {ts : List (Expr K)} {t : Expr K} (h : t ∈ sumItems ts) :
    ∀ us, t ≠ sum us := by
  rcases mem_sumItems h with ⟨c, rfl⟩ | ⟨hmem, -⟩
  · nofun
  · obtain ⟨u, -, hu⟩ := mem_summandsList.1 hmem
    exact ne_sum_of_mem_summands hu

/-- Items are summed up to themselves. -/
theorem sumItems_of_summandsList [LawfulStart K] {ts us : List (Expr K)}
    (h : summandsList us = sumItems ts) : sumItems us = sumItems ts := by
  have hconstant : sumConstant us = ((sumItems ts).filterMap constant?).foldl (· + ·) 0 := by
    rw [sumConstant, h]
  have hothers : otherSummands us = withoutConstants (sumItems ts) := by rw [otherSummands, h]
  rw [sumItems_eq us, hconstant, hothers, sumItems_eq ts]
  by_cases hzero : (sumConstant ts == 0) = true
  · simp only [bne, hzero, Bool.not_true, Bool.false_eq_true, if_false]
    rw [otherSummands, filterMap_withoutConstants, withoutConstants_idem]
    exact if_neg (by simp [LawfulZero.zero_beq])
  · have hzero : (sumConstant ts == 0) = false := by simpa using hzero
    simp only [bne, hzero, Bool.not_false, if_true]
    rw [filterMap_cons_const, otherSummands, filterMap_withoutConstants,
      withoutConstants_cons_const, withoutConstants_idem, List.foldl_cons, List.foldl_nil,
      LawfulStart.zero_add hzero]
    exact if_pos (by simp [hzero])

theorem sumItems_of_isZero [LawfulZeros K] {e : Expr K} (h : e.isZero = true) :
    sumItems [e] = [] := by
  cases e with
  | const c =>
    have hconstant : (sumConstant [const c] == 0) = true :=
      LawfulZeros.add_beq_zero LawfulZero.zero_beq h
    rw [sumItems_eq, if_neg (by simp [bne, hconstant])]
    rfl
  | _ => cases h

/-- The items of a normalised sum are those that it was built of. -/
theorem sumItems_sumOf [LawfulZeros K] (ts : List (Expr K)) :
    sumItems [sumOf ts] = sumItems ts := by
  have hitems : ∀ t ∈ sumItems ts, summands t = [t] := fun t ht =>
    summands_eq_self (ne_sum_of_mem_sumItems ht)
  rcases sumOf_cases ts with ⟨hnone, hsum⟩ | ⟨only, hone, hsum⟩ | ⟨-, hsum⟩
  · rw [hnone, hsum]
    exact sumItems_of_isZero isZero_zero
  · refine sumItems_of_summandsList ?_
    rw [hsum, summandsList_eq_self, hone]
    intro t ht
    rw [List.mem_singleton.1 ht]
    exact hitems only (hone ▸ List.mem_singleton_self only)
  · refine sumItems_of_summandsList ?_
    rw [hsum, summandsList, summands, summandsList_eq_self hitems]
    exact List.append_nil _

/-! ## Products -/

/-- The factors of `productOf ts` that are no numbers. -/
def otherFactors (ts : List (Expr K)) : List (Expr K) :=
  withoutConstants (factorsList ts)

theorem productItems_eq (ts : List (Expr K)) :
    productItems ts = if productCoefficient ts != 1 then
      const (productCoefficient ts) :: otherFactors ts else otherFactors ts := rfl

theorem ne_product_of_mem_productItems {ts : List (Expr K)} {t : Expr K} (h : t ∈ productItems ts) :
    ∀ us, t ≠ product us := by
  rcases mem_productItems h with ⟨c, rfl⟩ | ⟨hmem, -⟩
  · nofun
  · obtain ⟨u, -, hu⟩ := mem_factorsList.1 hmem
    exact ne_product_of_mem_factors hu

theorem productOf_congr {ts us : List (Expr K)}
    (hcoefficient : productCoefficient ts = productCoefficient us)
    (hothers : otherFactors ts = otherFactors us) : productOf ts = productOf us := by
  have hitems : productItems ts = productItems us := by
    rw [productItems_eq, productItems_eq, hcoefficient, hothers]
  rw [productOf_eq, productOf_eq, hcoefficient, hitems]

section Unit
variable [LawfulUnit K]

theorem parts_of_factorsList {ts us : List (Expr K)} (h : factorsList us = productItems ts) :
    productCoefficient us = productCoefficient ts ∧ otherFactors us = otherFactors ts := by
  have hconstants : (otherFactors ts).filterMap constant? = [] := filterMap_withoutConstants _
  have hothers : withoutConstants (otherFactors ts) = otherFactors ts := withoutConstants_idem _
  rw [productCoefficient, otherFactors, h, productItems_eq]
  by_cases hone : (productCoefficient ts == 1) = true
  · simp only [bne, hone, Bool.not_true, Bool.false_eq_true, if_false]
    rw [hconstants, hothers, LawfulUnit.eq_one hone]
    exact ⟨rfl, rfl⟩
  · have hone : (productCoefficient ts == 1) = false := by simpa using hone
    simp only [bne, hone, Bool.not_false, if_true]
    rw [filterMap_cons_const, hconstants, withoutConstants_cons_const, hothers]
    exact ⟨LawfulUnit.one_mul _, rfl⟩

/-- A normalised product that is not zero has the coefficient and the other factors of its
arguments. -/
theorem productOf_parts {ts : List (Expr K)} (h : (productCoefficient ts == 0) = false) :
    productCoefficient [productOf ts] = productCoefficient ts ∧
      otherFactors [productOf ts] = otherFactors ts := by
  have hitems : ∀ t ∈ productItems ts, factors t = [t] := fun t ht =>
    factors_eq_self (ne_product_of_mem_productItems ht)
  rcases productOf_cases ts with
    ⟨hzero, -⟩ | ⟨-, ⟨hnone, hproduct⟩ | ⟨only, hone, hproduct⟩ | ⟨-, hproduct⟩⟩
  · rw [h] at hzero
    cases hzero
  · -- nothing is left but the factor one
    have hone : (productCoefficient ts == 1) = true := by
      by_contra hne
      rw [productItems_eq, if_pos (by simpa [bne] using hne)] at hnone
      cases hnone
    rw [productItems_eq, if_neg (by simp [bne, hone])] at hnone
    rw [hproduct, hnone, LawfulUnit.eq_one hone]
    exact ⟨LawfulUnit.one_mul 1, rfl⟩
  · refine parts_of_factorsList ?_
    rw [hproduct, factorsList_eq_self, hone]
    intro t ht
    rw [List.mem_singleton.1 ht]
    exact hitems only (hone ▸ List.mem_singleton_self only)
  · refine parts_of_factorsList ?_
    rw [hproduct, factorsList, factors, factorsList_eq_self hitems]
    exact List.append_nil _

end Unit

end Semidefinite.Expr
