import Mathlib.Algebra.MvPolynomial.Supported
import Semidefinite.LinearForm
import Semidefinite.Proofs.Expr.Coefficients

/-!
# Linear forms are exact

`LinearForm.ofExpr` looks at the terms of an expression with a nonce added, and
multiplies out only if these are not affine. Both ways give the coefficients of
the polynomial (`affineTerms?_eq_some`), and the second one fails only for a
polynomial that is not affine (`affineTerms?_eq_none`). The nonce adds a
monomial of its own, which neither is asked for nor changes another coefficient.
-/

namespace Semidefinite

open MvPolynomial

/-! ## Affine polynomials -/

/-- No monomial but one and the single variables occurs. -/
def AffineIn (vars : List Symbol) (p : MvPolynomial Symbol ℚ) : Prop :=
  ∀ d ∈ p.support, d = 0 ∨ ∃ v ∈ vars, d = Finsupp.single v 1

theorem single_one_injective {s t : Symbol}
    (h : Finsupp.single s 1 = (Finsupp.single t 1 : Symbol →₀ ℕ)) : s = t :=
  Finsupp.single_left_injective one_ne_zero h

/-- The value of an affine polynomial is its constant plus a term for each variable. -/
theorem eval_of_affineIn {vars : List Symbol} (hvars : vars.Nodup) {p : MvPolynomial Symbol ℚ}
    (h : AffineIn vars p) (x : Symbol → ℚ) :
    eval x p = coeff 0 p + (vars.map fun v => coeff (Finsupp.single v 1) p * x v).sum := by
  let linear : Finset (Symbol →₀ ℕ) := vars.toFinset.image fun v => Finsupp.single v 1
  have hsub : p.support ⊆ insert 0 linear := by
    intro d hd
    rcases h d hd with rfl | ⟨v, hv, rfl⟩
    · exact Finset.mem_insert_self _ _
    · exact Finset.mem_insert_of_mem
        (Finset.mem_image_of_mem _ (List.mem_toFinset.2 hv))
  have hzero : (0 : Symbol →₀ ℕ) ∉ linear := by
    simp [linear]
  rw [MvPolynomial.eval_eq, Finset.sum_subset hsub, Finset.sum_insert hzero, Finset.sum_image]
  · rw [← List.sum_toFinset _ hvars]
    congr 1
    · simp
    · refine Finset.sum_congr rfl fun v _ => ?_
      rw [Finsupp.support_single v one_ne_zero, Finset.prod_singleton,
        Finsupp.single_eq_same, pow_one]
  · intro s _ t _ hst
    exact single_one_injective hst
  · intro d _ hd
    rw [notMem_support_iff.1 hd, zero_mul]

namespace Expr

theorem poly_mem_supported {e : Expr ℚ} {S : Set Symbol} (h : ∀ s ∈ e.occurrences, s ∈ S) :
    e.poly ∈ supported ℚ S := by
  induction e using inductionOn with
  | const c => exact (supported ℚ S).algebraMap_mem c
  | symbol s => exact X_mem_supported.2 (h s (by simp [occurrences]))
  | sum ts ih =>
    unfold poly
    rw [eval_sum]
    refine Subalgebra.list_sum_mem _ fun p hp => ?_
    obtain ⟨t, ht, rfl⟩ := List.mem_map.1 hp
    exact ih t ht fun s hs => h s (by rw [occurrences]; exact mem_occurrencesList.2 ⟨t, ht, hs⟩)
  | product ts ih =>
    unfold poly
    rw [eval_product]
    refine Subalgebra.list_prod_mem _ fun p hp => ?_
    obtain ⟨t, ht, rfl⟩ := List.mem_map.1 hp
    exact ih t ht fun s hs => h s (by rw [occurrences]; exact mem_occurrencesList.2 ⟨t, ht, hs⟩)
  | power base n ih =>
    unfold poly
    rw [eval_power]
    exact Subalgebra.pow_mem _ (ih fun s hs => h s (by rwa [occurrences])) n

/-- A symbol that does not occur in a tree does not occur in its polynomial. -/
theorem coeff_poly_of_not_mem {e : Expr ℚ} {s : Symbol} (h : s ∉ e.occurrences)
    {d : Symbol →₀ ℕ} (hd : d s ≠ 0) : e.poly.coeff d = 0 := by
  by_contra hne
  have hs : s ∈ e.poly.vars := (mem_vars_iff_mem_support s).2
    ⟨d, MvPolynomial.mem_support_iff.2 hne, Finsupp.mem_support_iff.2 hd⟩
  exact h (mem_supported.1 (poly_mem_supported (S := {t | t ∈ e.occurrences}) fun _ h => h) hs)

end Expr

namespace LinearForm

open Semidefinite.Expr

/-! ## Affine terms -/

theorem isAffine_iff {K : Type} {allowed : List Symbol} {terms : Tally TermKey K} :
    isAffine allowed terms = true ↔
      ∀ k ∈ terms.keys, k = .one ∨ ∃ s ∈ allowed, k = .symbol s := by
  unfold isAffine
  rw [List.all_eq_true]
  refine forall₂_congr fun k _ => ?_
  cases k <;> simp

theorem keysMonomial_of_isAffine {allowed : List Symbol} {e : Expr ℚ}
    (h : isAffine allowed e.terms = true) : e.KeysMonomial := by
  intro k hk
  rcases isAffine_iff.1 h k hk with rfl | ⟨s, -, rfl⟩
  · exact TermKey.isMonomial_one
  · exact TermKey.isMonomial_symbol s

/-- Where no key is a text, the terms are affine exactly if the polynomial is. -/
theorem isAffine_iff_affineIn {allowed : List Symbol} {e : Expr ℚ}
    (hfaithful : KeysFaithful e.topTerms) (hmono : e.KeysMonomial) :
    isAffine allowed e.terms = true ↔ AffineIn allowed e.poly := by
  rw [isAffine_iff]
  refine ⟨fun h d hd => ?_, fun h k hk => ?_⟩
  · obtain ⟨k, hk, rfl⟩ := (mem_support_poly_iff hfaithful hmono).1 hd
    rcases h k hk with rfl | ⟨s, hs, rfl⟩
    · exact .inl rfl
    · exact .inr ⟨s, hs, rfl⟩
  · rcases h k.exponents ((mem_support_poly_iff hfaithful hmono).2 ⟨k, hk, rfl⟩) with
      hd | ⟨s, hs, hd⟩
    · exact .inl ((hmono k hk).ext TermKey.isMonomial_one hd)
    · exact .inr ⟨s, hs, (hmono k hk).ext (TermKey.isMonomial_symbol s) hd⟩

/-- Terms that are found are those of an affine polynomial, coefficient by coefficient. -/
theorem affineTerms?_eq_some {allowed : List Symbol} {e : Expr ℚ}
    (hfaithful : KeysFaithful e.topTerms) {terms : Tally TermKey ℚ}
    (h : affineTerms? allowed e = some terms) :
    AffineIn allowed e.poly ∧
      ∀ k : TermKey, k.IsMonomial → terms.total k = e.poly.coeff k.exponents := by
  unfold affineTerms? at h
  split at h
  · rename_i haffine
    cases h
    have hmono := keysMonomial_of_isAffine haffine
    exact ⟨(isAffine_iff_affineIn hfaithful hmono).1 haffine,
      fun k hk => (coeff_exponents hfaithful hmono hk).symm⟩
  · simp only at h
    split at h
    · rename_i haffine
      cases h
      have haffine := (isAffine_iff_affineIn (keysFaithful_expand e) (keysMonomial_expand e)).1
        haffine
      rw [poly_expand] at haffine
      refine ⟨haffine, fun k hk => ?_⟩
      rw [← coeff_exponents (keysFaithful_expand e) (keysMonomial_expand e) hk, poly_expand]
    · cases h

theorem affineTerms?_eq_none {allowed : List Symbol} {e : Expr ℚ}
    (h : affineTerms? allowed e = none) : ¬ AffineIn allowed e.poly := by
  unfold affineTerms? at h
  split at h
  · cases h
  · simp only at h
    split at h
    · cases h
    · rename_i hexpanded
      rw [isAffine_iff_affineIn (keysFaithful_expand e) (keysMonomial_expand e), poly_expand]
        at hexpanded
      exact hexpanded

/-! ## The hidden nonce -/

section Nonce
variable {nonce : Symbol} {e : Expr ℚ}

theorem poly_shifted (nonce : Symbol) (e : Expr ℚ) :
    (sumOf [.symbol nonce, e]).poly = X nonce + e.poly := by
  unfold poly
  rw [eval_sumOf]
  simp

/-- Adding the nonce files no further term under a text. -/
theorem keysFaithful_shifted (nonce : Symbol) (h : KeysFaithful e.summands) :
    KeysFaithful (sumOf [.symbol nonce, e]).topTerms := by
  refine h.of_subset fun t ht htext => ?_
  obtain ⟨text, htext⟩ := htext
  rcases mem_topTerms_sumOf ht with ⟨c, rfl⟩ | ⟨ht, -⟩
  · cases htext
  · have hsummands : summandsList [.symbol nonce, e] = .symbol nonce :: e.summands := by
      simp [summandsList, summands]
    rw [hsummands] at ht
    rcases List.mem_cons.1 ht with rfl | ht
    · cases htext
    · exact ht

theorem coeff_shifted {d : Symbol →₀ ℕ} (hd : d ≠ Finsupp.single nonce 1) :
    (X nonce + e.poly).coeff d = e.poly.coeff d := by
  rw [coeff_add, coeff_X, if_neg hd.symm, zero_add]

theorem affineIn_shifted_iff {vars : List Symbol} (he : nonce ∉ e.occurrences) :
    AffineIn (vars ++ [nonce]) (X nonce + e.poly) ↔ AffineIn vars e.poly := by
  have hown : ∀ d ∈ e.poly.support, d ≠ Finsupp.single nonce 1 := by
    rintro d hd rfl
    exact MvPolynomial.mem_support_iff.1 hd (coeff_poly_of_not_mem he (by simp))
  refine ⟨fun h d hd => ?_, fun h d hd => ?_⟩
  · have hshift : d ∈ (X nonce + e.poly).support := by
      rw [MvPolynomial.mem_support_iff, coeff_shifted (hown d hd)]
      exact MvPolynomial.mem_support_iff.1 hd
    rcases h d hshift with hd0 | ⟨v, hv, hdv⟩
    · exact .inl hd0
    · refine .inr ⟨v, ?_, hdv⟩
      rcases List.mem_append.1 hv with hv | hv
      · exact hv
      · rw [List.mem_singleton.1 hv] at hdv
        exact absurd hdv (hown d hd)
  · by_cases hdn : d = Finsupp.single nonce 1
    · exact .inr ⟨nonce, by simp, hdn⟩
    · rw [MvPolynomial.mem_support_iff, coeff_shifted hdn, ← MvPolynomial.mem_support_iff] at hd
      rcases h d hd with hd0 | ⟨v, hv, hdv⟩
      · exact .inl hd0
      · exact .inr ⟨v, List.mem_append_left _ hv, hdv⟩

end Nonce

/-! ## Reading a linear form -/

/-- The form whose parts are coefficients of a polynomial. -/
noncomputable def ofPoly (vars : List Symbol) (p : MvPolynomial Symbol ℚ) : LinearForm ℚ :=
  ⟨vars.map fun v => p.coeff (Finsupp.single v 1), p.coeff 0⟩

/-- What a linear form stands for at `x`. -/
def value (form : LinearForm ℚ) (vars : List Symbol) (x : Symbol → ℚ) : ℚ :=
  form.constant + (List.zipWith (fun c v => c * x v) form.coefficients vars).sum

theorem eval_eq_value {vars : List Symbol} (hvars : vars.Nodup) {e : Expr ℚ}
    (h : AffineIn vars e.poly) (x : Symbol → ℚ) :
    e.eval x = (ofPoly vars e.poly).value vars x := by
  have hpoly : e.eval x = MvPolynomial.eval x e.poly := by
    rw [← aeval_poly, MvPolynomial.aeval_eq_eval]
  rw [hpoly, eval_of_affineIn hvars h]
  simp only [value, ofPoly, List.zipWith_map_left]
  congr 2
  induction vars with
  | nil => rfl
  | cons v vars ih => simp

section OfExpr
variable {nonce : Symbol} {e : Expr ℚ} {vars : List Symbol}

theorem ofExpr_eq_ok (hvars : nonce ∉ vars) (he : nonce ∉ e.occurrences)
    (hfaithful : KeysFaithful e.summands) {form : LinearForm ℚ}
    (h : ofExpr nonce e vars = .ok form) : AffineIn vars e.poly ∧ form = ofPoly vars e.poly := by
  unfold ofExpr at h
  split at h
  · rename_i terms hterms
    cases h
    obtain ⟨haffine, htotal⟩ := affineTerms?_eq_some (keysFaithful_shifted nonce hfaithful) hterms
    rw [poly_shifted] at haffine htotal
    refine ⟨(affineIn_shifted_iff he).1 haffine, ?_⟩
    have hzero : (0 : Symbol →₀ ℕ) ≠ Finsupp.single nonce 1 := by
      simp [eq_comm]
    simp only [ofTerms, ofPoly, LinearForm.mk.injEq]
    refine ⟨?_, ?_⟩
    · refine List.map_congr_left fun v hv => ?_
      rw [htotal _ (TermKey.isMonomial_symbol v)]
      refine coeff_shifted fun hd => hvars ?_
      rwa [← single_one_injective hd]
    · rw [htotal _ TermKey.isMonomial_one]
      exact coeff_shifted hzero
  · cases h

theorem ofExpr_eq_error (he : nonce ∉ e.occurrences) {cause : NonLinear}
    (h : ofExpr nonce e vars = .error cause) : ¬ AffineIn vars e.poly ∧ cause = ⟨e.text⟩ := by
  unfold ofExpr at h
  split at h
  · cases h
  · rename_i hterms
    cases h
    have haffine := affineTerms?_eq_none hterms
    rw [poly_shifted, affineIn_shifted_iff he] at haffine
    exact ⟨haffine, rfl⟩

end OfExpr

end LinearForm

namespace Expr

/-- A linear form is read exactly if the polynomial is affine in the variables. It then
consists of the coefficients, and has the value of the expression; an expression that is
refused is named by its own text, without the nonce. -/
theorem linearForm_exact (supply : NonceSupply) (e : Expr ℚ) (vars : List Symbol)
    (hvars : vars.Nodup) (hnonce : supply.peek ∉ vars) (hfresh : supply.peek ∉ e.occurrences)
    (hkeys : KeysFaithful e.summands) :
    ((∃ form, ((e.linearForm vars).run supply).1 = .ok form) ↔ AffineIn vars e.poly) ∧
    (∀ form, ((e.linearForm vars).run supply).1 = .ok form →
      form.constant = e.poly.coeff 0 ∧
      form.coefficients = vars.map (fun v => e.poly.coeff (Finsupp.single v 1)) ∧
      ∀ x : Symbol → ℚ, e.eval x = form.value vars x) ∧
    (∀ cause, ((e.linearForm vars).run supply).1 = .error cause → cause = ⟨e.text⟩) := by
  rw [show ((e.linearForm vars).run supply).1 = LinearForm.ofExpr supply.peek e vars from rfl]
  refine ⟨⟨?_, fun haffine => ?_⟩, fun form hform => ?_, fun cause hcause => ?_⟩
  · rintro ⟨form, hform⟩
    exact (LinearForm.ofExpr_eq_ok hnonce hfresh hkeys hform).1
  · cases hform : LinearForm.ofExpr supply.peek e vars with
    | ok form => exact ⟨form, rfl⟩
    | error cause => exact absurd haffine (LinearForm.ofExpr_eq_error hfresh hform).1
  · obtain ⟨haffine, rfl⟩ := LinearForm.ofExpr_eq_ok hnonce hfresh hkeys hform
    exact ⟨rfl, rfl, LinearForm.eval_eq_value hvars haffine⟩
  · exact (LinearForm.ofExpr_eq_error hfresh hcause).2

/-- `2 * (x + 1) + -1/2 * (y + -3)` is affine only once it is multiplied out. -/
theorem linearForm_exact_of_products :
    let x : Symbol := { name := "x" }
    let y : Symbol := { name := "y" }
    let e : Expr ℚ := .sum [.product [.const 2, .sum [.symbol x, .const 1]],
      .product [.const (-1 / 2), .sum [.symbol y, .const (-3)]]]
    let supply := NonceSupply.first
    [x, y].Nodup ∧ supply.peek ∉ [x, y] ∧ supply.peek ∉ e.occurrences ∧
      KeysFaithful e.summands ∧
      ((∃ form, ((e.linearForm [x, y]).run supply).1 = .ok form) ↔ AffineIn [x, y] e.poly) ∧
      (∀ form, ((e.linearForm [x, y]).run supply).1 = .ok form →
        form.constant = e.poly.coeff 0 ∧
        form.coefficients = [x, y].map (fun v => e.poly.coeff (Finsupp.single v 1)) ∧
        ∀ values : Symbol → ℚ, e.eval values = form.value [x, y] values) ∧
      (∀ cause, ((e.linearForm [x, y]).run supply).1 = .error cause → cause = ⟨e.text⟩) := by
  intro x y e supply
  have hvars : [x, y].Nodup := by decide
  have hnonce : supply.peek ∉ [x, y] := by decide
  have hfresh : supply.peek ∉ e.occurrences := by decide
  have hkeys : KeysFaithful e.summands := keysFaithful_of_nodup (by decide)
  exact ⟨hvars, hnonce, hfresh, hkeys, linearForm_exact supply e [x, y] hvars hnonce hfresh hkeys⟩

end Expr

end Semidefinite
