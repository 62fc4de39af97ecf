import Semidefinite.Proofs.Expr.Coefficients

/-!
# Expansion is a canonical form

Multiplying out builds polynomials whose monomials ascend, each with its symbols
ascending and no zero among the exponents (`normal_toPolynomial`). Such a
polynomial is determined by what it denotes, up to zero coefficients
(`Normal.dropZeros_eq`), and these are dropped before it is written out. So
expressions that denote one polynomial have one expansion, and the terms of the
expansion are the monomials with their coefficients.
-/

namespace Semidefinite

open Std

/-! ## Structural equality -/

namespace Expr

section Beq
variable {K : Type} [BEq K]

theorem beqList_iff {as : List (Expr K)} (h : ∀ a ∈ as, ∀ b, beq a b = true ↔ a = b)
    (bs : List (Expr K)) : beqList as bs = true ↔ as = bs := by
  induction as generalizing bs with
  | nil => cases bs <;> simp [beqList]
  | cons a as ih =>
    cases bs with
    | nil => simp [beqList]
    | cons b bs =>
      rw [beqList, Bool.and_eq_true, h a List.mem_cons_self,
        ih fun c hc => h c (List.mem_cons_of_mem _ hc), List.cons.injEq]

variable [LawfulBEq K]

theorem beq_iff (a b : Expr K) : beq a b = true ↔ a = b := by
  induction a using inductionOn generalizing b with
  | const c => cases b <;> simp [beq]
  | symbol s => cases b <;> simp [beq]
  | sum ts ih => cases b <;> simp [beq, beqList_iff ih]
  | product ts ih => cases b <;> simp [beq, beqList_iff ih]
  | power base n ih => cases b <;> simp [beq, ih]

instance : LawfulBEq (Expr K) where
  eq_of_beq h := (beq_iff _ _).1 h
  rfl := (beq_iff _ _).2 rfl

end Beq

end Expr

/-! ## Normal monomials -/

namespace Monomial

/-- The symbols ascend, and no exponent is zero. -/
structure Normal (m : Monomial) : Prop where
  ascending : m.Ascending
  positive : ∀ p ∈ m.entries, 0 < p.2

theorem normal_empty : Normal Tally.empty := ⟨Tally.ascending_empty, by simp [Tally.empty]⟩

theorem normal_symbol (s : Symbol) : Normal ⟨[(s, 1)]⟩ :=
  ⟨by simp [Tally.Ascending], by simp⟩

theorem Normal.mul {m n : Monomial} (hm : m.Normal) (hn : n.Normal) : (mul m n).Normal where
  ascending := hm.ascending.addAll _
  positive := Tally.forall_totals_addAll (P := (0 < ·)) hm.positive
    (fun p hp => by simpa using hn.positive p hp) fun p _ u hu => Nat.add_pos_left hu _

theorem Normal.dropZeros_eq {m : Monomial} (h : m.Normal) : Tally.dropZeros m = m := by
  obtain ⟨entries⟩ := m
  refine congrArg Tally.mk (List.filter_eq_self.2 fun p hp => ?_)
  have hpos : 0 < p.2 := h.positive p hp
  simp only [bne_iff_ne]
  omega

theorem Normal.ext {m n : Monomial} (hm : m.Normal) (hn : n.Normal)
    (h : m.exponents = n.exponents) : m = n := by
  rw [← hm.dropZeros_eq, ← hn.dropZeros_eq]
  exact dropZeros_eq_of_exponents_eq hm.ascending hn.ascending h

end Monomial

/-! ## Normal polynomials -/

namespace Polynomial

/-- The monomials ascend and are normal. Zero coefficients are allowed. -/
structure Normal {K : Type} (p : Polynomial K) : Prop where
  ascending : p.Ascending
  monomials : ∀ m ∈ p.keys, Monomial.Normal m

theorem normal_empty {K : Type} : Normal (Tally.empty : Polynomial K) :=
  ⟨Tally.ascending_empty, by simp [Tally.keys, Tally.empty]⟩

section Operations
variable {K : Type} [Scalar K]

theorem normal_ofList {terms : List (Monomial × K)} (h : ∀ t ∈ terms, t.1.Normal) :
    Normal (Tally.ofList terms) where
  ascending := Tally.ascending_ofList terms
  monomials m hm := by
    obtain ⟨t, ht, rfl⟩ := List.mem_map.1 (Tally.mem_keys_ofList.1 hm)
    exact h t ht

theorem normal_const (c : K) : (const c).Normal :=
  normal_ofList (by simpa using Monomial.normal_empty)

theorem normal_symbol (s : Symbol) : (symbol s : Polynomial K).Normal :=
  normal_ofList (by simpa using Monomial.normal_symbol s)

variable {p q : Polynomial K}

theorem Normal.add (hp : p.Normal) (hq : q.Normal) : (add p q).Normal where
  ascending := hp.ascending.addAll _
  monomials m hm := by
    rcases Tally.mem_keys_addAll.1 hm with hm | hm
    · exact hp.monomials m hm
    · exact hq.monomials m hm

theorem Normal.mul (hp : p.Normal) (hq : q.Normal) : (mul p q).Normal := by
  refine normal_ofList fun t ht => ?_
  obtain ⟨u, hu, ht⟩ := List.mem_flatMap.1 ht
  obtain ⟨v, hv, rfl⟩ := List.mem_map.1 ht
  exact (hp.monomials _ (List.mem_map_of_mem hu)).mul (hq.monomials _ (List.mem_map_of_mem hv))

end Operations

/-- A normal polynomial keeps at a normal monomial the coefficient of what it denotes. -/
theorem Normal.total_eq_coeff {p : Polynomial ℚ} (hp : p.Normal) {m : Monomial} (hm : m.Normal) :
    p.total m = p.denote.coeff m.exponents :=
  (Tally.coeff_sum_monomial hp.ascending fun l hl h => (hp.monomials l hl).ext hm h).symm

/-- Normal polynomials that denote one polynomial differ at most in zeros. -/
theorem Normal.dropZeros_eq {p q : Polynomial ℚ} (hp : p.Normal) (hq : q.Normal)
    (h : p.denote = q.denote) : p.dropZeros = q.dropZeros := by
  refine Tally.Ascending.dropZeros_eq hp.ascending hq.ascending fun m => ?_
  by_cases hm : m.Normal
  · rw [hp.total_eq_coeff hm, hq.total_eq_coeff hm, h]
  · rw [Tally.total_of_not_mem fun hmem => hm (hp.monomials m hmem),
      Tally.total_of_not_mem fun hmem => hm (hq.monomials m hmem)]

end Polynomial

/-! ## Expansions -/

/-- The key of the monomial with the given exponents. -/
noncomputable def TermKey.ofExponents (d : Symbol →₀ ℕ) : TermKey :=
  .ofPowers (Tally.ofList (d.support.toList.map fun s => (s, d s)))

theorem TermKey.isMonomial_ofExponents (d : Symbol →₀ ℕ) : (ofExponents d).IsMonomial :=
  isMonomial_ofPowers (Tally.ascending_ofList _)

theorem TermKey.exponents_ofExponents (d : Symbol →₀ ℕ) : (ofExponents d).exponents = d := by
  rw [ofExponents, exponents_ofPowers, Monomial.exponents_ofList, List.map_map]
  exact (Finset.sum_map_toList d.support fun s => Finsupp.single s (d s)).trans
    (Finsupp.sum_single d)

theorem TermKey.IsMonomial.ofExponents_exponents {k : TermKey} (h : k.IsMonomial) :
    ofExponents k.exponents = k :=
  (isMonomial_ofExponents _).ext h (exponents_ofExponents _)

namespace Expr

theorem normal_toPolynomial {K : Type} [Scalar K] (e : Expr K) : e.toPolynomial.Normal :=
  toPolynomial_of_closed Polynomial.normal_empty Polynomial.normal_const Polynomial.Normal.add
    Polynomial.Normal.mul e fun s _ => Polynomial.normal_symbol s

theorem expand_eq_iff {a b : Expr ℚ} : a.expand = b.expand ↔ a.poly = b.poly := by
  refine ⟨fun h => ?_, fun h => ?_⟩
  · rw [← poly_expand a, h, poly_expand]
  · have hdenote : a.toPolynomial.denote = b.toPolynomial.denote := by
      rw [denote_toPolynomial, denote_toPolynomial, h]
    have hkept := (normal_toPolynomial a).dropZeros_eq (normal_toPolynomial b) hdenote
    rw [expand, expand, Polynomial.toExpr, Polynomial.toExpr, hkept]

theorem expand_zero : (zero : Expr ℚ).expand = zero := eq_of_beq (by decide +kernel)

theorem isZero_expand_iff {e : Expr ℚ} : e.expand.isZero = true ↔ e.poly = 0 := by
  refine ⟨fun h => ?_, fun h => ?_⟩
  · rw [← poly_expand]
    exact eval_of_isZero _ h
  · have hzero : e.poly = (zero : Expr ℚ).poly := by
      rw [h, poly, zero, eval_const, map_zero]
    rw [expand_eq_iff.2 hzero, expand_zero]
    rfl

/-- The terms of an expansion are the monomials with their coefficients. -/
theorem mem_terms_expand {e : Expr ℚ} {k : TermKey} {c : ℚ} :
    (k, c) ∈ e.expand.terms.entries ↔
      ∃ d, k = .ofExponents d ∧ c = e.poly.coeff d ∧ c ≠ 0 := by
  have hcoeff : ∀ {l : TermKey}, l.IsMonomial →
      e.poly.coeff l.exponents = e.expand.terms.total l := by
    intro l hl
    rw [← coeff_exponents (keysFaithful_expand e) (keysMonomial_expand e) hl, poly_expand]
  refine ⟨fun h => ?_, ?_⟩
  · have hk : k.IsMonomial := keysMonomial_expand e k (List.mem_map_of_mem h)
    refine ⟨k.exponents, hk.ofExponents_exponents.symm, ?_, (Tally.mem_dropZeros.1 h).2⟩
    rw [hcoeff hk, Tally.total_of_mem (ascending_terms _) h]
  · rintro ⟨d, rfl, hc, hne⟩
    refine (Tally.mem_entries_iff_total (ascending_terms _) hne).2 ?_
    rw [← hcoeff (TermKey.isMonomial_ofExponents d), TermKey.exponents_ofExponents, hc]

/-- Multiplying out keeps the value and gives one tree for every polynomial, zero for the zero
polynomial. No key of its terms is a text, and the terms are the monomials of the polynomial with
their coefficients that are not zero, each once. -/
theorem expand_canonical (e : Expr ℚ) :
    (∀ x : Symbol → ℚ, e.expand.eval x = e.eval x) ∧
    (∀ other : Expr ℚ, (e.expand = other.expand ↔ e.poly = other.poly) ∧
      ((e.expand == other.expand) = true ↔ e.poly = other.poly)) ∧
    (e.expand.isZero = true ↔ e.poly = 0) ∧
    (∀ text, .unexpanded text ∉ e.expand.terms.keys) ∧
    e.expand.terms.Ascending ∧
    ∀ k c, (k, c) ∈ e.expand.terms.entries ↔
      ∃ d, k = .ofExponents d ∧ c = e.poly.coeff d ∧ c ≠ 0 := by
  refine ⟨fun x => eval_expand x e, fun other => ⟨expand_eq_iff, ?_⟩, isZero_expand_iff,
    fun text htext => ?_, ascending_terms _, fun k c => mem_terms_expand⟩
  · rw [beq_iff_eq, expand_eq_iff]
  · exact (keysMonomial_expand e _ htext).ne_unexpanded text rfl

end Expr

end Semidefinite
