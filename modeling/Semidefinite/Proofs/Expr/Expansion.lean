import Semidefinite.Expr.Polynomial
import Semidefinite.Proofs.Expr.Value
import Semidefinite.Proofs.Tally

/-!
# Expansion

A tally of monomials denotes a polynomial (`Polynomial.denote`), and the
operations on such tallies are those of polynomials. So multiplying out keeps
what an expression denotes: `poly_expand`.
-/

namespace Semidefinite

open Std

/-! ## Monomials -/

namespace Monomial

/-- The exponents of a monomial as a function with finite support. -/
noncomputable def exponents (m : Monomial) : Symbol →₀ ℕ :=
  m.sum Finsupp.single

theorem additive_single : Tally.Additive (Finsupp.single : Symbol → ℕ → Symbol →₀ ℕ) where
  start k v := by rw [zero_add]
  add k u v := Finsupp.single_add k u v

@[simp] theorem exponents_empty : exponents Tally.empty = 0 := rfl

theorem exponents_mul (m n : Monomial) : (mul m n).exponents = m.exponents + n.exponents :=
  Tally.sum_merge additive_single m n

theorem exponents_ofList (powers : List (Symbol × ℕ)) :
    exponents (Tally.ofList powers) = (powers.map fun (s, n) => Finsupp.single s n).sum :=
  Tally.sum_ofList additive_single powers

theorem exponents_dropZeros (m : Monomial) : exponents m.dropZeros = m.exponents :=
  Tally.sum_dropZeros Finsupp.single_zero m

end Monomial

/-! ## Polynomials -/

/-- A coefficient of a sum of monomials is the total of its key, if no other key has the same
exponents. -/
theorem Tally.coeff_sum_monomial {κ : Type} [BEq κ] [LawfulBEq κ] [Ord κ] [LawfulEqOrd κ]
    {t : Tally κ ℚ} (ht : t.Ascending) {exponents : κ → Symbol →₀ ℕ} {k : κ}
    (hk : ∀ l ∈ t.keys, exponents l = exponents k → l = k) :
    (t.sum fun l c => MvPolynomial.monomial (exponents l) c).coeff (exponents k) = t.total k := by
  have hcoeff : (t.sum fun l c => MvPolynomial.monomial (exponents l) c).coeff (exponents k) =
      t.sum fun l c => (MvPolynomial.monomial (exponents l) c).coeff (exponents k) := by
    rw [Tally.sum, Tally.sum, ← MvPolynomial.lcoeff_apply, map_list_sum, List.map_map]
    rfl
  rw [hcoeff, Tally.sum_eq_total ht k (by simp)]
  · rw [MvPolynomial.coeff_monomial, if_pos rfl]
  · intro p hp hne
    rw [MvPolynomial.coeff_monomial, if_neg]
    exact fun h => hne (hk p.1 (List.mem_map_of_mem hp) h)

namespace Polynomial

/-- The polynomial that a tally of monomials stands for. -/
noncomputable def denote (p : Polynomial ℚ) : MvPolynomial Symbol ℚ :=
  p.sum fun m c => MvPolynomial.monomial m.exponents c

theorem additive_monomial : Tally.Additive fun (m : Monomial) (c : ℚ) =>
    MvPolynomial.monomial m.exponents c where
  start m c := by rw [zero_add]
  add m c d := map_add _ c d

theorem denote_ofList (terms : List (Monomial × ℚ)) :
    denote (Tally.ofList terms) =
      (terms.map fun (m, c) => MvPolynomial.monomial m.exponents c).sum :=
  Tally.sum_ofList additive_monomial terms

@[simp] theorem denote_empty : denote (Tally.empty : Polynomial ℚ) = 0 := rfl

@[simp] theorem denote_const (c : ℚ) : denote (const c) = MvPolynomial.C c := by
  rw [const, denote_ofList]
  simp

@[simp] theorem denote_symbol (s : Symbol) : denote (symbol s) = MvPolynomial.X s := by
  rw [symbol, denote_ofList]
  simp [Monomial.exponents, Tally.sum, MvPolynomial.X]

theorem denote_add (p q : Polynomial ℚ) : denote (add p q) = denote p + denote q :=
  Tally.sum_merge additive_monomial p q

theorem denote_mul (p q : Polynomial ℚ) : denote (mul p q) = denote p * denote q := by
  rw [mul, denote_ofList, denote, denote, Tally.sum, Tally.sum, ← List.sum_map_mul_right,
    List.flatMap_def, List.map_flatten, List.sum_flatten, List.map_map, List.map_map]
  refine congrArg List.sum (List.map_congr_left fun t _ => ?_)
  simp only [Function.comp_apply, List.map_map]
  rw [← List.sum_map_mul_left]
  refine congrArg List.sum (List.map_congr_left fun u _ => ?_)
  simp only [Function.comp_apply, Monomial.exponents_mul, MvPolynomial.monomial_mul]

theorem denote_pow (p : Polynomial ℚ) (n : ℕ) : denote (pow p n) = denote p ^ n := by
  induction n with
  | zero => simp [pow, Nat.repeat]
  | succ n ih =>
    rw [show pow p (n + 1) = mul (pow p n) p from rfl, denote_mul, ih, pow_succ]

end Polynomial

namespace Expr

theorem denote_addPolynomials (ts : List (Expr ℚ))
    (h : ∀ t ∈ ts, t.toPolynomial.denote = t.poly) (acc : Polynomial ℚ) :
    (addPolynomials acc ts).denote = acc.denote + (ts.map poly).sum := by
  induction ts generalizing acc with
  | nil => simp [addPolynomials]
  | cons t ts ih =>
    rw [addPolynomials, ih fun u hu => h u (List.mem_cons_of_mem _ hu), Polynomial.denote_add,
      h t List.mem_cons_self, List.map_cons, List.sum_cons, add_assoc]

theorem denote_mulPolynomials (ts : List (Expr ℚ))
    (h : ∀ t ∈ ts, t.toPolynomial.denote = t.poly) (acc : Polynomial ℚ) :
    (mulPolynomials acc ts).denote = acc.denote * (ts.map poly).prod := by
  induction ts generalizing acc with
  | nil => simp [mulPolynomials]
  | cons t ts ih =>
    rw [mulPolynomials, ih fun u hu => h u (List.mem_cons_of_mem _ hu), Polynomial.denote_mul,
      h t List.mem_cons_self, List.map_cons, List.prod_cons, mul_assoc]

theorem denote_toPolynomial (e : Expr ℚ) : e.toPolynomial.denote = e.poly := by
  induction e using inductionOn with
  | const c => simp [toPolynomial, poly]
  | symbol s => simp [toPolynomial, poly]
  | sum ts ih =>
    rw [toPolynomial, denote_addPolynomials ts ih, Polynomial.denote_empty, zero_add]
    exact (eval_sum _ ts).symm
  | product ts ih =>
    rw [toPolynomial, denote_mulPolynomials ts ih, Polynomial.denote_const, map_one, one_mul]
    exact (eval_product _ ts).symm
  | power base n ih => rw [toPolynomial, Polynomial.denote_pow, ih, poly, poly, eval_power]

/-! ## What additions and multiplications keep -/

section Closed
variable {K : Type} [Scalar K] {P : Polynomial K → Prop}

theorem addPolynomials_of_closed (hadd : ∀ {p q : Polynomial K}, P p → P q → P (p.add q))
    {ts : List (Expr K)} (h : ∀ t ∈ ts, P t.toPolynomial) {acc : Polynomial K} (hacc : P acc) :
    P (addPolynomials acc ts) := by
  induction ts generalizing acc with
  | nil => rwa [addPolynomials]
  | cons t ts ih =>
    rw [addPolynomials]
    exact ih (fun u hu => h u (List.mem_cons_of_mem _ hu)) (hadd hacc (h t List.mem_cons_self))

theorem mulPolynomials_of_closed (hmul : ∀ {p q : Polynomial K}, P p → P q → P (p.mul q))
    {ts : List (Expr K)} (h : ∀ t ∈ ts, P t.toPolynomial) {acc : Polynomial K} (hacc : P acc) :
    P (mulPolynomials acc ts) := by
  induction ts generalizing acc with
  | nil => rwa [mulPolynomials]
  | cons t ts ih =>
    rw [mulPolynomials]
    exact ih (fun u hu => h u (List.mem_cons_of_mem _ hu)) (hmul hacc (h t List.mem_cons_self))

/-- What holds of numbers and of the symbols that occur, and what sums and products keep, holds of
the polynomial of an expression. -/
theorem toPolynomial_of_closed (hempty : P Tally.empty) (hconst : ∀ c, P (Polynomial.const c))
    (hadd : ∀ {p q : Polynomial K}, P p → P q → P (p.add q))
    (hmul : ∀ {p q : Polynomial K}, P p → P q → P (p.mul q)) (e : Expr K)
    (hsymbol : ∀ s ∈ e.occurrences, P (Polynomial.symbol s)) : P e.toPolynomial := by
  induction e using inductionOn with
  | const c => exact hconst c
  | symbol s => exact hsymbol s (by simp [occurrences])
  | sum ts ih =>
    refine addPolynomials_of_closed hadd (fun t ht => ih t ht fun s hs => hsymbol s ?_) hempty
    rw [occurrences]
    exact mem_occurrencesList.2 ⟨t, ht, hs⟩
  | product ts ih =>
    refine mulPolynomials_of_closed hmul (fun t ht => ih t ht fun s hs => hsymbol s ?_) (hconst 1)
    rw [occurrences]
    exact mem_occurrencesList.2 ⟨t, ht, hs⟩
  | power base n ih =>
    have hbase : P base.toPolynomial := ih fun s hs => hsymbol s (by rwa [occurrences])
    show P (base.toPolynomial.pow n)
    clear hsymbol
    induction n with
    | zero => exact hconst 1
    | succ n ihn => exact hmul ihn hbase

end Closed

/-! ## Writing a polynomial out -/

theorem prod_poly_factors (m : Monomial) :
    ((Monomial.factors m).map poly).prod = MvPolynomial.monomial m.exponents 1 := by
  obtain ⟨entries⟩ := m
  simp only [Monomial.factors, Monomial.exponents, Tally.sum]
  induction entries with
  | nil => rfl
  | cons p rest ih =>
    simp only [List.map_cons, List.prod_cons, List.sum_cons, ih]
    rw [poly, eval_powerOf, eval_symbol, MvPolynomial.X_pow_eq_monomial, MvPolynomial.monomial_mul,
      one_mul]

theorem poly_toExpr (p : Polynomial ℚ) : p.toExpr.poly = p.denote := by
  rw [Polynomial.toExpr, poly, eval_sumOf, List.map_map, Polynomial.denote,
    ← Tally.sum_dropZeros (fun m => map_zero _), Tally.sum]
  refine congrArg List.sum (List.map_congr_left fun t _ => ?_)
  simp only [Function.comp_apply]
  rw [eval_productOf, List.map_cons, List.prod_cons, eval_const]
  have h := prod_poly_factors t.1
  unfold poly at h
  rw [h, MvPolynomial.algebraMap_eq, MvPolynomial.C_mul_monomial, mul_one]

theorem poly_expand (e : Expr ℚ) : e.expand.poly = e.poly := by
  rw [expand, poly_toExpr, denote_toPolynomial]

theorem eval_expand {R : Type*} [CommRing R] [Algebra ℚ R] (x : Symbol → R) (e : Expr ℚ) :
    eval x e.expand = eval x e := by
  rw [← aeval_poly, poly_expand, aeval_poly]

end Expr

end Semidefinite
