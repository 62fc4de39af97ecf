import Semidefinite.Proofs.Expr.Merging

/-!
# Coefficients read off the terms

Where no key is left a text, the merged terms of an expression are the
coefficients of its polynomial: each key has the coefficient of its monomial
(`coeff_exponents`), and the keys are the monomials that occur
(`mem_support_poly_iff`). An expression that is multiplied out has no text among its
keys (`keysMonomial_expand`).
-/

namespace Semidefinite

open Std

theorem TermKey.IsMonomial.ne_unexpanded {k : TermKey} (h : k.IsMonomial) (text : String) :
    k ≠ .unexpanded text := by
  obtain ⟨m, -, rfl⟩ := h
  unfold TermKey.ofPowers
  split <;> simp

namespace Expr

/-- Every key left by merging can be read as a monomial. -/
def KeysMonomial (e : Expr ℚ) : Prop :=
  ∀ k ∈ e.terms.keys, k.IsMonomial

theorem ascending_terms (e : Expr ℚ) : e.terms.Ascending :=
  (Tally.ascending_ofList _).dropZeros

theorem exists_topTerm_of_mem_keys {e : Expr ℚ} {k : TermKey} (h : k ∈ e.terms.keys) :
    ∃ t ∈ e.topTerms, t.key = k := by
  obtain ⟨p, hp, rfl⟩ := List.mem_map.1 h
  have hp : p ∈ e.mergedTerms.entries := (Tally.mem_dropZeros.1 hp).1
  have hk : p.1 ∈ (e.topTerms.map splitTerm).map Prod.fst :=
    Tally.mem_keys_ofList.1 (List.mem_map_of_mem hp)
  rw [List.map_map] at hk
  exact List.mem_map.1 hk

section Faithful
variable {e : Expr ℚ} (hfaithful : KeysFaithful e.topTerms) (hmono : e.KeysMonomial)
include hfaithful hmono

theorem poly_eq_sum_terms :
    e.poly = e.terms.sum fun k c => MvPolynomial.monomial k.exponents c := by
  rw [poly, eval_eq_sum_terms MvPolynomial.X hfaithful]
  refine Tally.sum_congr fun p hp => ?_
  have hk : p.1 ∈ e.terms.keys := List.mem_map_of_mem hp
  obtain ⟨t, ht, hkey⟩ := exists_topTerm_of_mem_keys hk
  have hpoly := hfaithful.poly_keyedProduct ht
  rw [poly_symbolicPart (hkey ▸ (hmono _ hk).ne_unexpanded), hkey] at hpoly
  rw [keyedValue, ← poly, hpoly, MvPolynomial.algebraMap_eq, MvPolynomial.C_mul_monomial, mul_one]

theorem coeff_exponents {k : TermKey} (hk : k.IsMonomial) :
    e.poly.coeff k.exponents = e.terms.total k := by
  rw [poly_eq_sum_terms hfaithful hmono]
  exact Tally.coeff_sum_monomial (ascending_terms e) fun l hl h => (hmono l hl).ext hk h

/-- The monomials that occur in the polynomial are those of the keys. -/
theorem mem_support_poly_iff {d : Symbol →₀ ℕ} :
    d ∈ e.poly.support ↔ ∃ k ∈ e.terms.keys, k.exponents = d := by
  refine ⟨fun hd => ?_, ?_⟩
  · by_contra hnone
    push Not at hnone
    refine MvPolynomial.mem_support_iff.1 hd ?_
    rw [poly_eq_sum_terms hfaithful hmono, Tally.sum, ← MvPolynomial.lcoeff_apply, map_list_sum,
      List.map_map]
    refine List.sum_eq_zero fun c hc => ?_
    obtain ⟨p, hp, rfl⟩ := List.mem_map.1 hc
    simp only [Function.comp_apply, MvPolynomial.lcoeff_apply]
    rw [MvPolynomial.coeff_monomial, if_neg (hnone _ (List.mem_map_of_mem hp))]
  · rintro ⟨k, hk, rfl⟩
    rw [MvPolynomial.mem_support_iff, coeff_exponents hfaithful hmono (hmono k hk)]
    obtain ⟨p, hp, rfl⟩ := List.mem_map.1 hk
    rw [Tally.total_of_mem (ascending_terms e) hp]
    exact (Tally.mem_dropZeros.1 hp).2

end Faithful

/-! ## The terms of a sum -/

section TopTerms
variable {K : Type}

theorem topTerms_of_mem_summands (e : Expr K) : ∀ t ∈ summands e, t.topTerms = [t] := by
  induction e using inductionOn with
  | sum ts ih =>
    intro t ht
    unfold summands at ht
    obtain ⟨u, hu, ht⟩ := mem_summandsList.1 ht
    exact ih u hu t ht
  | _ => simp [summands, topTerms]

theorem topTerms_of_mem_summandsList {ts : List (Expr K)} {t : Expr K}
    (h : t ∈ summandsList ts) : t.topTerms = [t] :=
  topTerms_of_mem_summands (sum ts) t (by rwa [summands])

/-- A term of a normalised sum is a number or one of the summands. -/
theorem mem_topTerms_sumOf [Scalar K] {ts : List (Expr K)} {t : Expr K}
    (h : t ∈ (sumOf ts).topTerms) :
    (∃ c, t = const c) ∨ (t ∈ summandsList ts ∧ t.constant? = none) := by
  rcases sumOf_cases ts with ⟨-, ho⟩ | ⟨only, hi, ho⟩ | ⟨-, ho⟩
  · rw [ho] at h
    exact .inl ⟨0, List.mem_singleton.1 h⟩
  · have honly : only ∈ sumItems ts := by simp [hi]
    have honly := mem_sumItems honly
    have htop : only.topTerms = [only] := by
      rcases honly with ⟨c, rfl⟩ | ⟨hmem, -⟩
      · rfl
      · exact topTerms_of_mem_summandsList hmem
    rw [ho, htop] at h
    rwa [List.mem_singleton.1 h]
  · rw [ho] at h
    exact mem_sumItems h

end TopTerms

/-! ## Terms of an expansion -/

theorem exists_mapM_of_isSome {α β : Type} {f : α → Option β} {as : List α}
    (h : ∀ a ∈ as, (f a).isSome) : ∃ bs, as.mapM f = some bs := by
  induction as with
  | nil => exact ⟨[], rfl⟩
  | cons a as ih =>
    obtain ⟨b, hb⟩ := Option.isSome_iff_exists.1 (h a List.mem_cons_self)
    obtain ⟨bs, hbs⟩ := ih fun c hc => h c (List.mem_cons_of_mem _ hc)
    exact ⟨b :: bs, by simp [List.mapM_cons, hb, hbs]⟩

section Monomial
variable {K : Type} [Scalar K]

/-- A number, a symbol or a power of a symbol. -/
def IsSimple (e : Expr K) : Prop :=
  e.constant?.isSome ∨ (symbolPower? e).isSome

theorem isSimple_powerOf_symbol (s : Symbol) (n : ℕ) :
    IsSimple (powerOf (symbol s : Expr K) n) := by
  unfold powerOf
  split
  · exact .inl rfl
  split
  · exact .inr rfl
  · exact .inr rfl

omit [Scalar K] in
theorem factors_of_isSimple {e : Expr K} (h : IsSimple e) : factors e = [e] := by
  cases e <;> simp_all [IsSimple, constant?, symbolPower?, factors]

omit [Scalar K] in
theorem factorsList_of_isSimple {es : List (Expr K)} (h : ∀ e ∈ es, IsSimple e) :
    factorsList es = es :=
  factorsList_eq_self fun e he => factors_of_isSimple (h e he)

/-- A number times powers of symbols. -/
def IsMonomialTerm (t : Expr K) : Prop :=
  IsSimple t ∨ ∃ items, t = product items ∧ ∀ e ∈ items, IsSimple e

theorem isMonomialTerm_productOf {es : List (Expr K)} (h : ∀ e ∈ es, IsSimple e) :
    IsMonomialTerm (productOf es) := by
  have hitems : ∀ e ∈ productItems es, IsSimple e := by
    intro e he
    rcases mem_productItems he with ⟨c, rfl⟩ | ⟨he, -⟩
    · exact .inl rfl
    · rw [factorsList_of_isSimple h] at he
      exact h e he
  rcases productOf_cases es with ⟨-, ho⟩ | ⟨-, ⟨-, ho⟩ | ⟨only, hi, ho⟩ | ⟨-, ho⟩⟩
  · rw [ho]
    exact .inl (.inl rfl)
  · rw [ho]
    exact .inl (.inl rfl)
  · rw [ho]
    exact .inl (hitems only (by simp [hi]))
  · rw [ho]
    exact .inr ⟨_, rfl, hitems⟩

omit [Scalar K] in
theorem residue_simple {t : Expr K} (h : IsMonomialTerm t) :
    ∀ e ∈ t.residue, (symbolPower? e).isSome := by
  intro e he
  rcases h with h | ⟨items, rfl, h⟩
  · cases t <;> simp_all [residue, IsSimple, constant?, symbolPower?]
  · obtain ⟨he, hconst⟩ := List.mem_filter.1 he
    rcases h e he with h | h
    · rw [Option.isNone_iff_eq_none] at hconst
      simp [hconst] at h
    · exact h

theorem isMonomial_key_of_isMonomialTerm {t : Expr K} (h : IsMonomialTerm t) :
    t.key.IsMonomial := by
  obtain ⟨powers, hpowers⟩ := exists_mapM_of_isSome (residue_simple h)
  rw [key_eq, productKey, hpowers]
  exact TermKey.isMonomial_ofPowers (Tally.ascending_ofList powers)

omit [Scalar K] in
theorem summands_of_isMonomialTerm {t : Expr K} (h : IsMonomialTerm t) : summands t = [t] := by
  rcases h with h | ⟨items, rfl, -⟩
  · cases t <;> simp_all [IsSimple, constant?, symbolPower?, summands]
  · rfl

omit [Scalar K] in
theorem summandsList_of_isMonomialTerm {ts : List (Expr K)} (h : ∀ t ∈ ts, IsMonomialTerm t) :
    summandsList ts = ts :=
  summandsList_eq_self fun t ht => summands_of_isMonomialTerm (h t ht)

theorem isMonomialTerm_factors (m : Monomial) (c : K) :
    IsMonomialTerm (productOf (const c :: m.factors)) := by
  refine isMonomialTerm_productOf fun f hf => ?_
  rcases List.mem_cons.1 hf with rfl | hf
  · exact .inl rfl
  · obtain ⟨⟨s, n⟩, -, rfl⟩ := List.mem_map.1 hf
    exact isSimple_powerOf_symbol s n

theorem isMonomialTerm_of_mem_topTerms_expand {e t : Expr K} (h : t ∈ e.expand.topTerms) :
    IsMonomialTerm t := by
  unfold expand Polynomial.toExpr at h
  rcases mem_topTerms_sumOf h with ⟨c, rfl⟩ | ⟨ht, -⟩
  · exact .inl (.inl rfl)
  · rw [summandsList_of_isMonomialTerm] at ht
    · obtain ⟨p, -, rfl⟩ := List.mem_map.1 ht
      exact isMonomialTerm_factors p.1 p.2
    · intro u hu
      obtain ⟨p, -, rfl⟩ := List.mem_map.1 hu
      exact isMonomialTerm_factors p.1 p.2

end Monomial

theorem keysMonomial_expand (e : Expr ℚ) : e.expand.KeysMonomial := by
  intro k hk
  obtain ⟨t, ht, rfl⟩ := exists_topTerm_of_mem_keys hk
  exact isMonomial_key_of_isMonomialTerm (isMonomialTerm_of_mem_topTerms_expand ht)

theorem keysFaithful_expand (e : Expr ℚ) : KeysFaithful e.expand.topTerms := by
  intro t ht u _ text htext _
  exact absurd htext
    ((isMonomial_key_of_isMonomialTerm (isMonomialTerm_of_mem_topTerms_expand ht)).ne_unexpanded _)

end Expr

end Semidefinite
