import Semidefinite.Proofs.Doubles
import Semidefinite.Proofs.Readable

/-!
# The nonce leaves no trace

A linear form is read off the sum of a nonce and the expression. Among the terms
of the sum, as it stands and multiplied out, the nonce is one entry more
(`insertedAt_terms`, `insertedAt_terms_expand`), so what is read is the same
whatever fresh nonce is added (`LinearForm.ofExpr_eq_plainForm`). No law of
arithmetic is used beyond those of zero and one, so this holds of doubles.
-/

namespace Semidefinite

/-! ## Symbols of polynomials -/

variable {K : Type} [Scalar K]

namespace Polynomial

/-- The symbols of the monomials. -/
def Within (S : Symbol → Prop) (p : Polynomial K) : Prop :=
  ∀ m ∈ p.keys, ∀ s ∈ Tally.keys m, S s

variable {S : Symbol → Prop}

omit [Scalar K] in
theorem within_empty : Within S (Tally.empty : Polynomial K) :=
  fun _ hm => nomatch hm

theorem within_ofList {terms : List (Monomial × K)} (h : ∀ t ∈ terms, ∀ s ∈ Tally.keys t.1, S s) :
    Within S (Tally.ofList terms) := by
  intro m hm
  obtain ⟨t, ht, rfl⟩ := List.mem_map.1 (Tally.mem_keys_ofList.1 hm)
  exact h t ht

theorem within_const (c : K) : Within S (const c) :=
  within_ofList (by simp [Tally.keys, Tally.empty])

theorem within_symbol {s : Symbol} (hs : S s) : Within S (symbol s : Polynomial K) :=
  within_ofList (by simpa [Tally.keys] using hs)

variable {p q : Polynomial K}

theorem Within.add (hp : p.Within S) (hq : q.Within S) : (add p q).Within S := by
  intro m hm
  rcases Tally.mem_keys_addAll.1 hm with hm | hm
  · exact hp m hm
  · exact hq m hm

theorem Within.mul (hp : p.Within S) (hq : q.Within S) : (mul p q).Within S := by
  refine within_ofList fun t ht s hs => ?_
  obtain ⟨u, hu, ht⟩ := List.mem_flatMap.1 ht
  obtain ⟨v, hv, rfl⟩ := List.mem_map.1 ht
  rcases Tally.mem_keys_addAll.1 hs with hs | hs
  · exact hp _ (List.mem_map_of_mem hu) s hs
  · exact hq _ (List.mem_map_of_mem hv) s hs

end Polynomial

namespace Expr

open Tally

variable {e : Expr K} {nonce : Symbol}

theorem within_toPolynomial (e : Expr K) : e.toPolynomial.Within (· ∈ e.occurrences) :=
  toPolynomial_of_closed Polynomial.within_empty Polynomial.within_const Polynomial.Within.add
    Polynomial.Within.mul e fun _ hs => Polynomial.within_symbol hs

/-- The sum of the polynomials of the terms. -/
def sumPolynomial (ts : List (Expr K)) : Polynomial K :=
  ofList (ts.flatMap fun t => t.toPolynomial.entries)

theorem addPolynomials_eq (acc : Polynomial K) (ts : List (Expr K)) :
    addPolynomials acc ts = acc.addAll (ts.flatMap fun t => t.toPolynomial.entries) := by
  induction ts generalizing acc with
  | nil => rw [addPolynomials]; rfl
  | cons t ts ih =>
    rw [addPolynomials, ih, List.flatMap_cons, Polynomial.add, merge, addAll, addAll, addAll,
      List.foldl_append]

theorem toPolynomial_sum (ts : List (Expr K)) : (sum ts).toPolynomial = sumPolynomial ts := by
  rw [toPolynomial, addPolynomials_eq]
  rfl

theorem within_sumPolynomial (e : Expr K) :
    (sumPolynomial (sumItems [e])).Within (· ∈ e.occurrences) := by
  refine Polynomial.within_ofList fun p hp s hs => ?_
  obtain ⟨t, ht, hp⟩ := List.mem_flatMap.1 hp
  obtain ⟨u, hu, hs⟩ := mem_occurrences_of_mem_sumItems ht
    (within_toPolynomial t p.1 (List.mem_map_of_mem hp) s hs)
  rwa [List.mem_singleton.1 hu] at hs

theorem eq_of_mem_occurrences_powerOf {s t : Symbol} {n : Nat}
    (hs : s ∈ (powerOf (symbol t : Expr K) n).occurrences) : s = t := by
  unfold powerOf at hs
  split at hs
  · simp [occurrences] at hs
  split at hs <;> simpa [occurrences] using hs

theorem mem_keys_of_mem_occurrences_term {m : Monomial} {c : K} {s : Symbol}
    (hs : s ∈ (productOf (const c :: m.factors)).occurrences) : s ∈ Tally.keys m := by
  obtain ⟨t, ht, hs⟩ := mem_occurrences_productOf hs
  rcases List.mem_cons.1 ht with rfl | ht
  · simp [occurrences] at hs
  · obtain ⟨p, hp, rfl⟩ := List.mem_map.1 ht
    obtain rfl := eq_of_mem_occurrences_powerOf hs
    exact List.mem_map_of_mem hp

/-! ## Sums with a nonce -/

/-- The nonce is no number, so it is one item more and the constant is the same. -/
theorem sumItems_append_symbol (nonce : Symbol) (before after : List (Expr K)) :
    ∃ front back, sumItems (before ++ after) = front ++ back ∧
      sumItems (before ++ symbol nonce :: after) = front ++ symbol nonce :: back := by
  have hparts : summandsList (before ++ symbol nonce :: after) =
      summandsList before ++ symbol nonce :: summandsList after := by
    simp [summandsList_eq, summands]
  have hparts' : summandsList (before ++ after) = summandsList before ++ summandsList after := by
    simp [summandsList_eq]
  have hconstants : ((summandsList (before ++ symbol nonce :: after)).filterMap constant?) =
      (summandsList (before ++ after)).filterMap constant? := by
    rw [hparts, hparts', List.filterMap_append, List.filterMap_cons_none rfl, List.filterMap_append]
  have hrest : withoutConstants (summandsList (before ++ symbol nonce :: after)) =
      withoutConstants (summandsList before) ++
        symbol nonce :: withoutConstants (summandsList after) := by
    rw [hparts, withoutConstants, List.filter_append, List.filter_cons_of_pos rfl]
    rfl
  have hrest' : withoutConstants (summandsList (before ++ after)) =
      withoutConstants (summandsList before) ++ withoutConstants (summandsList after) := by
    rw [hparts', withoutConstants, List.filter_append]
    rfl
  unfold sumItems
  simp only [hconstants, hrest, hrest']
  split
  · exact ⟨_ :: _, _, rfl, rfl⟩
  · exact ⟨_, _, rfl, rfl⟩

/-- A sum among whose items is a symbol is that symbol or the sum of its items. -/
theorem sumOf_of_symbol_mem {ts front back : List (Expr K)}
    (h : sumItems ts = front ++ symbol nonce :: back) :
    (front = [] ∧ back = [] ∧ sumOf ts = symbol nonce) ∨
      sumOf ts = sum (front ++ symbol nonce :: back) := by
  rcases sumOf_cases ts with ⟨hitems, -⟩ | ⟨only, hitems, hsum⟩ | ⟨-, hsum⟩
  · simp [hitems] at h
  · rw [hitems] at h
    cases front with
    | nil =>
      obtain ⟨rfl, rfl⟩ := List.cons.inj h
      exact .inl ⟨rfl, rfl, hsum⟩
    | cons a front => simp at h
  · exact .inr (h ▸ hsum)

/-- The merged terms of a normalised sum. -/
def termsOfSum (ts : List (Expr K)) : Tally TermKey K :=
  (ofList ((sumItems ts).map splitTerm)).dropZeros

section Shifted
variable [LawfulOne K]

/-- The nonce is one term more. -/
theorem insertedAt_terms (before after : List (Expr K))
    (h : ∀ t ∈ before ++ after, nonce ∉ t.occurrences) :
    InsertedAt (.symbol nonce) 1 (termsOfSum (before ++ after))
      (sumOf (before ++ symbol nonce :: after)).terms := by
  obtain ⟨front, back, hwithout, hwith⟩ := sumItems_append_symbol nonce before after
  have htop : (sumOf (before ++ symbol nonce :: after)).topTerms =
      front ++ symbol nonce :: back := by
    rcases sumOf_of_symbol_mem hwith with ⟨rfl, rfl, hsum⟩ | hsum
    · rw [hsum]
      rfl
    · rw [hsum]
      rfl
  have hnew : .symbol nonce ∉ (front.map splitTerm ++ back.map splitTerm).map Prod.fst := by
    rw [← List.map_append, ← hwithout, List.map_map]
    intro hmem
    obtain ⟨t, ht, hkey⟩ := List.mem_map.1 hmem
    obtain ⟨u, hu, hs⟩ := mem_occurrences_of_mem_sumItems ht (mem_occurrences_of_key_eq_symbol hkey)
    exact h u hu hs
  have hinserted := insertedAt_ofList (1 : K) hnew
  rw [LawfulOne.zero_add_one] at hinserted
  have hdropped := hinserted.dropZeros LawfulOne.one_beq_zero
  unfold termsOfSum terms
  rw [hwithout, htop, List.map_append, List.map_append, List.map_cons]
  exact hdropped

theorem insertedAt_toPolynomial (h : nonce ∉ e.occurrences) :
    InsertedAt ⟨[(nonce, 1)]⟩ 1 (sumPolynomial (sumItems [e]))
      (sumOf [symbol nonce, e]).toPolynomial := by
  have hwithin := within_sumPolynomial e
  obtain ⟨front, back, hwithout, hwith⟩ := sumItems_append_symbol nonce [] [e]
  rw [List.nil_append] at hwithout
  rw [hwithout, sumPolynomial, List.flatMap_append] at hwithin ⊢
  have hnew : (⟨[(nonce, 1)]⟩ : Monomial) ∉ (front.flatMap (fun t => t.toPolynomial.entries) ++
      back.flatMap fun t => t.toPolynomial.entries).map Prod.fst := fun hmem =>
    h (hwithin _ (mem_keys_ofList.2 hmem) nonce (by simp [keys]))
  have hinserted := insertedAt_ofList (1 : K) hnew
  rw [LawfulOne.zero_add_one] at hinserted
  rcases sumOf_of_symbol_mem hwith with ⟨rfl, rfl, hsum⟩ | hsum <;> rw [List.nil_append] at hsum
  · rw [hsum]
    exact hinserted
  · have hsymbol : (symbol nonce : Expr K).toPolynomial.entries = [(⟨[(nonce, 1)]⟩, 1)] := by
      rw [← LawfulOne.zero_add_one (K := K)]
      rfl
    rw [hsum, toPolynomial_sum, sumPolynomial, List.flatMap_append, List.flatMap_cons, hsymbol]
    exact hinserted

/-! ## Multiplying out -/

theorem productOf_one_symbol (nonce : Symbol) :
    productOf ((const 1 : Expr K) :: Monomial.factors ⟨[(nonce, 1)]⟩) = symbol nonce := by
  have hfactors : Monomial.factors ⟨[(nonce, 1)]⟩ = [(symbol nonce : Expr K)] := rfl
  have hcoefficient : productCoefficient [(const 1 : Expr K), symbol nonce] = 1 :=
    LawfulOne.one_mul_one
  have hitems : productItems [(const 1 : Expr K), symbol nonce] = [symbol nonce] := by
    unfold productItems
    rw [hcoefficient, if_neg (by simp [bne, LawfulOne.one_beq_one])]
    rfl
  rw [hfactors, productOf_eq, hcoefficient, hitems, LawfulOne.one_beq_zero]
  rfl

/-- The terms of an expression multiplied out. -/
def expandedTerms (e : Expr K) : Tally TermKey K :=
  termsOfSum ((dropZeros (sumPolynomial (sumItems [e]))).entries.map fun (m, c) =>
    productOf (const c :: m.factors))

/-- Multiplied out, the nonce is one term more as well. -/
theorem insertedAt_terms_expand (h : nonce ∉ e.occurrences) :
    InsertedAt (.symbol nonce) 1 e.expandedTerms (sumOf [symbol nonce, e]).expand.terms := by
  have hwithin := within_sumPolynomial e
  obtain ⟨-, before, after, hwithout, hwith⟩ :=
    (insertedAt_toPolynomial h).dropZeros LawfulOne.one_beq_zero
  unfold expandedTerms expand Polynomial.toExpr
  rw [hwithout, hwith, List.map_append, List.map_append, List.map_cons]
  show InsertedAt _ 1 _
    (sumOf (_ ++ productOf (const 1 :: Monomial.factors ⟨[(nonce, 1)]⟩) :: _)).terms
  rw [productOf_one_symbol]
  refine insertedAt_terms _ _ fun t ht hs => h ?_
  rw [← List.map_append, ← hwithout] at ht
  obtain ⟨p, hp, rfl⟩ := List.mem_map.1 ht
  exact hwithin p.1 (List.mem_map_of_mem (List.mem_filter.1 hp).1) nonce
    (mem_keys_of_mem_occurrences_term hs)

end Shifted

end Expr

/-! ## Reading without a nonce -/

namespace LinearForm

open Semidefinite.Expr Tally

/-- The form that is read off an expression, told without the nonce. -/
def plainForm (e : Expr K) (vars : List Symbol) : Except NonLinear (LinearForm K) :=
  if isAffine vars (termsOfSum [e]) then .ok (ofTerms vars (termsOfSum [e]))
  else if isAffine vars e.expandedTerms then .ok (ofTerms vars e.expandedTerms)
  else .error ⟨e.text⟩

section Inserted
variable {nonce : Symbol} {vars : List Symbol} {v : K} {s t : Tally TermKey K}
  (h : InsertedAt (.symbol nonce) v s t)
include h

omit [Scalar K] in
theorem isAffine_of_insertedAt : isAffine (vars ++ [nonce]) t = isAffine vars s := by
  rw [Bool.eq_iff_iff, isAffine_iff, isAffine_iff]
  constructor
  · intro haffine k hk
    rcases haffine k (h.mem_keys.2 (.inr hk)) with hone | ⟨x, hx, rfl⟩
    · exact .inl hone
    · rcases List.mem_append.1 hx with hx | hx
      · exact .inr ⟨x, hx, rfl⟩
      · rw [List.mem_singleton.1 hx] at hk
        exact absurd hk h.new
  · intro haffine k hk
    rcases h.mem_keys.1 hk with rfl | hk
    · exact .inr ⟨nonce, by simp, rfl⟩
    · rcases haffine k hk with hone | ⟨x, hx, rfl⟩
      · exact .inl hone
      · exact .inr ⟨x, List.mem_append_left _ hx, rfl⟩

theorem ofTerms_of_insertedAt (hvars : nonce ∉ vars) : ofTerms vars t = ofTerms vars s := by
  have hcoefficients : (vars.map fun x => t.total (.symbol x)) =
      vars.map fun x => s.total (.symbol x) := by
    refine List.map_congr_left fun x hx => h.total_eq fun hxn => hvars ?_
    rwa [← TermKey.symbol.inj hxn]
  unfold ofTerms
  rw [hcoefficients, h.total_eq (by simp)]

end Inserted

/-- What is read off an expression does not depend on the nonce, as long as it is fresh. -/
theorem ofExpr_eq_plainForm [LawfulOne K] {nonce : Symbol} {e : Expr K} {vars : List Symbol}
    (hvars : nonce ∉ vars) (h : nonce ∉ e.occurrences) :
    ofExpr nonce e vars = plainForm e vars := by
  have hterms : InsertedAt (.symbol nonce) 1 (termsOfSum [e]) (sumOf [symbol nonce, e]).terms :=
    insertedAt_terms [] [e] (by simpa using h)
  have hexpanded := insertedAt_terms_expand h
  unfold ofExpr affineTerms? plainForm
  rw [isAffine_of_insertedAt hterms]
  simp only [isAffine_of_insertedAt hexpanded]
  by_cases hplain : isAffine vars (termsOfSum [e]) = true
  · simp only [if_pos hplain]
    rw [ofTerms_of_insertedAt hterms hvars]
  · simp only [if_neg hplain]
    by_cases hmultiplied : isAffine vars e.expandedTerms = true
    · simp only [if_pos hmultiplied]
      rw [ofTerms_of_insertedAt hexpanded hvars]
    · simp only [if_neg hmultiplied]

/-! ## Forms over exact numbers -/

instance : Infinite Symbol := by
  refine Infinite.of_injective
    (fun n : Nat => ({ name := String.ofList (List.replicate n 'x') } : Symbol)) fun m n h => ?_
  have hlength := congrArg (fun s => s.name.length) h
  simpa using hlength

omit [Scalar K] in
theorem exists_fresh (vars : List Symbol) (e : Expr K) :
    ∃ nonce : Symbol, nonce ∉ vars ∧ nonce ∉ e.occurrences := by
  obtain ⟨nonce, hnonce⟩ := Infinite.exists_notMem_finset (vars ++ e.occurrences).toFinset
  rw [List.mem_toFinset, List.mem_append, not_or] at hnonce
  exact ⟨nonce, hnonce⟩

section Exact
variable {e : Expr ℚ} {vars : List Symbol}

theorem plainForm_eq_ok (hkeys : KeysFaithful e.summands) {form : LinearForm ℚ}
    (h : plainForm e vars = .ok form) : AffineIn vars e.poly ∧ form = ofPoly vars e.poly := by
  obtain ⟨nonce, hvars, he⟩ := exists_fresh vars e
  rw [← ofExpr_eq_plainForm hvars he] at h
  exact ofExpr_eq_ok hvars he hkeys h

theorem exists_plainForm_iff : (∃ form, plainForm e vars = .ok form) ↔ e.Readable vars := by
  obtain ⟨nonce, hvars, he⟩ := exists_fresh vars e
  rw [← ofExpr_eq_plainForm hvars he]
  exact exists_ofExpr_iff he

end Exact

end LinearForm

end Semidefinite
