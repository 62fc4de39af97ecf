import Semidefinite.Proofs.Expr.Expansion

/-!
# Merging like terms

A term is a number times its symbolic part, and it is filed under the key of
that part. The keys that are no text stand for one monomial each
(`poly_symbolicPart`), so terms under such a key are always alike. Terms under
one text are alike only as far as the text tells: `KeysFaithful ts` says that it
does for the terms `ts`. Then merging keeps the value (`eval_eq_sum_terms`).
-/

namespace Semidefinite

open Std

/-! ## Keys of monomials -/

namespace Monomial

theorem exponents_apply {m : Monomial} (h : m.Ascending) (s : Symbol) :
    m.exponents s = m.total s := by
  have hsum : m.exponents s = Tally.sum (fun t n => Finsupp.single t n s) m := by
    rw [exponents, Tally.sum, Tally.sum, ← Finsupp.applyAddHom_apply, map_list_sum, List.map_map]
    rfl
  rw [hsum, Tally.sum_eq_total h s (by simp)]
  · simp
  · intro p _ hp
    exact Finsupp.single_eq_of_ne hp.symm

theorem dropZeros_eq_of_exponents_eq {m n : Monomial} (hm : m.Ascending) (hn : n.Ascending)
    (h : m.exponents = n.exponents) : Tally.dropZeros m = Tally.dropZeros n := by
  refine Tally.Ascending.dropZeros_eq hm hn fun s => ?_
  rw [← exponents_apply hm, ← exponents_apply hn, h]

end Monomial

namespace TermKey

/-- The exponents of the monomial that a key stands for, none for a text. -/
noncomputable def exponents : TermKey → Symbol →₀ ℕ
  | one => 0
  | symbol s => Finsupp.single s 1
  | monomial powers => powers.exponents
  | unexpanded _ => 0

/-- The key of some monomial. -/
def IsMonomial (k : TermKey) : Prop :=
  ∃ m : Monomial, m.Ascending ∧ k = ofPowers m

theorem exponents_ofPowers (m : Monomial) : (ofPowers m).exponents = m.exponents := by
  rw [← Monomial.exponents_dropZeros, ofPowers]
  split
  · rename_i h
    simp [exponents, Monomial.exponents, Tally.sum, h]
  · rename_i s h
    simp [exponents, Monomial.exponents, Tally.sum, h]
  · rfl

theorem isMonomial_ofPowers {m : Monomial} (h : m.Ascending) : (ofPowers m).IsMonomial :=
  ⟨m, h, rfl⟩

theorem isMonomial_one : one.IsMonomial := ⟨Tally.empty, Tally.ascending_empty, rfl⟩

theorem isMonomial_symbol (s : Symbol) : (symbol s).IsMonomial :=
  ⟨⟨[(s, 1)]⟩, by simp [Tally.Ascending], rfl⟩

theorem IsMonomial.ext {k l : TermKey} (hk : k.IsMonomial) (hl : l.IsMonomial)
    (h : k.exponents = l.exponents) : k = l := by
  obtain ⟨m, hm, rfl⟩ := hk
  obtain ⟨n, hn, rfl⟩ := hl
  rw [exponents_ofPowers, exponents_ofPowers] at h
  rw [ofPowers, ofPowers, Monomial.dropZeros_eq_of_exponents_eq hm hn h]

end TermKey

namespace Expr

/-! ## The parts of a term -/

section Parts
variable {K : Type} [Scalar K]

/-- The factors of a term other than numbers. -/
def residue : Expr K → List (Expr K)
  | const _ => []
  | product items => withoutConstants items
  | e => [e]

/-- The product of the numbers in a term. -/
def coefficient : Expr K → K
  | const c => c
  | product items => (items.filterMap constant?).foldl (· * ·) 1
  | _ => 1

/-- A term without its coefficient. -/
def symbolicPart (t : Expr K) : Expr K :=
  product t.residue

/-- The key that a term is filed under. -/
def key (t : Expr K) : TermKey :=
  (splitTerm t).1

theorem splitTerm_eq (t : Expr K) : splitTerm t = (productKey t.residue, t.coefficient) := by
  cases t <;> rfl

theorem key_eq (t : Expr K) : t.key = productKey t.residue := by
  unfold key
  rw [splitTerm_eq]

/-- A product is filed by its exponents, if all its factors are powers of symbols, and
otherwise by its text. -/
theorem productKey_cases (items : List (Expr K)) :
    (∃ powers, items.mapM symbolPower? = some powers ∧
      productKey items = TermKey.ofPowers (Tally.ofList powers)) ∨
    (items.mapM symbolPower? = none ∧ productKey items = .unexpanded (productOf items).text) := by
  unfold productKey
  cases h : items.mapM symbolPower? with
  | none => exact .inr ⟨rfl, rfl⟩
  | some powers => exact .inl ⟨powers, rfl, rfl⟩

end Parts

section Eval
variable {R : Type*} [CommRing R] [Algebra ℚ R] (x : Symbol → R)

theorem eval_term (t : Expr ℚ) :
    eval x t = algebraMap ℚ R t.coefficient * eval x t.symbolicPart := by
  cases t with
  | product items =>
    rw [symbolicPart, residue, coefficient, foldl_mul_eq_prod, one_mul, eval_product, eval_product,
      prod_eval_split]
  | _ => simp [symbolicPart, residue, coefficient]

theorem sum_eval_topTerms (e : Expr ℚ) : ((topTerms e).map (eval x)).sum = eval x e := by
  cases e <;> simp [topTerms]

theorem eval_of_symbolPower? {e : Expr ℚ} {s : Symbol} {n : ℕ}
    (h : symbolPower? e = some (s, n)) : eval x e = x s ^ n := by
  unfold symbolPower? at h
  split at h
  · cases h
    simp
  · cases h
    simp
  · cases h

end Eval

theorem prod_poly_of_powers {items : List (Expr ℚ)} {powers : List (Symbol × ℕ)}
    (h : items.mapM symbolPower? = some powers) :
    (items.map poly).prod =
      MvPolynomial.monomial (powers.map fun (s, n) => Finsupp.single s n).sum 1 := by
  induction items generalizing powers with
  | nil =>
    cases h
    rfl
  | cons e rest ih =>
    rw [List.mapM_cons] at h
    obtain ⟨⟨s, n⟩, hp, h⟩ := Option.bind_eq_some_iff.1 h
    obtain ⟨tail, htail, h⟩ := Option.bind_eq_some_iff.1 h
    cases h
    rw [List.map_cons, List.prod_cons, ih htail, List.map_cons, List.sum_cons, poly,
      eval_of_symbolPower? _ hp, MvPolynomial.X_pow_eq_monomial, MvPolynomial.monomial_mul, one_mul]

/-- A key that is no text stands for the monomial of its exponents. -/
theorem poly_symbolicPart {t : Expr ℚ} (h : ∀ text, t.key ≠ .unexpanded text) :
    t.symbolicPart.poly = MvPolynomial.monomial t.key.exponents 1 := by
  have hpoly : t.symbolicPart.poly = (t.residue.map poly).prod := eval_product _ _
  simp only [key_eq] at h ⊢
  rcases productKey_cases t.residue with ⟨powers, hpowers, hkey⟩ | ⟨-, hkey⟩
  · rw [hpoly, prod_poly_of_powers hpowers, hkey, TermKey.exponents_ofPowers,
      Monomial.exponents_ofList]
  · exact absurd hkey (h _)

/-! ## Faithful keys -/

/-- Terms that are filed under one text have symbolic parts that denote one polynomial. -/
def KeysFaithful (ts : List (Expr ℚ)) : Prop :=
  ∀ t ∈ ts, ∀ u ∈ ts, ∀ text, t.key = .unexpanded text → u.key = .unexpanded text →
    t.symbolicPart.poly = u.symbolicPart.poly

theorem KeysFaithful.of_subset {ts us : List (Expr ℚ)} (h : KeysFaithful us)
    (hsub : ∀ t ∈ ts, (∃ text, t.key = .unexpanded text) → t ∈ us) : KeysFaithful ts := by
  intro t ht u hu text htext hutext
  exact h t (hsub t ht ⟨text, htext⟩) u (hsub u hu ⟨text, hutext⟩) text htext hutext

theorem keysFaithful_of_nodup {ts : List (Expr ℚ)} (h : (ts.map key).Nodup) :
    KeysFaithful ts := by
  intro t ht u hu text htext hutext
  rw [List.inj_on_of_nodup_map h ht hu (htext.trans hutext.symm)]

/-- Under faithful keys, terms under one key are alike, whatever the key. -/
theorem KeysFaithful.poly_eq {ts : List (Expr ℚ)} (h : KeysFaithful ts) {t u : Expr ℚ}
    (ht : t ∈ ts) (hu : u ∈ ts) (hkey : t.key = u.key) :
    t.symbolicPart.poly = u.symbolicPart.poly := by
  by_cases htext : ∃ text, t.key = .unexpanded text
  · obtain ⟨text, htext⟩ := htext
    exact h t ht u hu text htext (hkey ▸ htext)
  · push Not at htext
    rw [poly_symbolicPart htext, poly_symbolicPart (hkey ▸ htext), hkey]

/-- What a key stands for among some terms: the symbolic part of the first one under it. -/
def keyedProduct {K : Type} [Scalar K] (ts : List (Expr K)) (k : TermKey) : Expr K :=
  ((ts.find? fun t => t.key == k).map symbolicPart).getD (product [])

theorem KeysFaithful.poly_keyedProduct {ts : List (Expr ℚ)} (h : KeysFaithful ts) {t : Expr ℚ}
    (ht : t ∈ ts) : (keyedProduct ts t.key).poly = t.symbolicPart.poly := by
  unfold keyedProduct
  cases hfind : ts.find? fun u => u.key == t.key with
  | none =>
    have := List.find?_eq_none.1 hfind t ht
    simp at this
  | some u =>
    have hkey : u.key = t.key := by simpa using List.find?_some hfind
    exact h.poly_eq (List.mem_of_find?_eq_some hfind) ht hkey

/-! ## The merged sum -/

/-- The merged coefficient of every key, zero or not. -/
def mergedTerms {K : Type} [Scalar K] (e : Expr K) : Tally TermKey K :=
  Tally.ofList (e.topTerms.map splitTerm)

theorem terms_eq {K : Type} [Scalar K] (e : Expr K) : e.terms = e.mergedTerms.dropZeros := rfl

section Merged
variable {R : Type*} [CommRing R] [Algebra ℚ R] (x : Symbol → R)

/-- The value of a coefficient times that of the product under the key. -/
def keyedValue (ts : List (Expr ℚ)) (k : TermKey) (c : ℚ) : R :=
  algebraMap ℚ R c * eval x (keyedProduct ts k)

theorem additive_keyedValue (ts : List (Expr ℚ)) : Tally.Additive (keyedValue x ts) where
  start k v := by rw [zero_add]
  add k u v := by rw [keyedValue, map_add, add_mul, keyedValue, keyedValue]

theorem eval_eq_sum_mergedTerms {e : Expr ℚ} (h : KeysFaithful e.topTerms) :
    eval x e = e.mergedTerms.sum (keyedValue x e.topTerms) := by
  rw [mergedTerms, Tally.sum_ofList (additive_keyedValue x _), List.map_map, ← sum_eval_topTerms]
  refine congrArg List.sum (List.map_congr_left fun t ht => ?_)
  rw [eval_term, Function.comp_apply, splitTerm_eq]
  simp only [keyedValue]
  rw [← key_eq, ← aeval_poly x (keyedProduct _ _), h.poly_keyedProduct ht, aeval_poly]

theorem eval_eq_sum_terms {e : Expr ℚ} (h : KeysFaithful e.topTerms) :
    eval x e = e.terms.sum (keyedValue x e.topTerms) := by
  rw [terms_eq, Tally.sum_dropZeros, ← eval_eq_sum_mergedTerms x h]
  intro k
  unfold keyedValue
  rw [map_zero, zero_mul]

end Merged

end Expr

end Semidefinite
