import Semidefinite.Proofs.Expr.Expansion
import Semidefinite.Proofs.Expr.Flattening
import Semidefinite.Proofs.Expr.Zero

/-!
# The normal form of expressions

In a normal expression (`Expr.IsNormal`) sums and products are flat, at most their
first item is a number, and powers are merged within the limits. The normalising
constructors build normal expressions of normal ones, whatever the numbers are, so
every expression that is built with them is normal (`isNormal_of_built`). Where the
laws of zero and one hold, a normal expression is what the constructors make of its
own parts (`sumOf_of_isNormal`, `productOf_of_isNormal`, `powerOf_of_isNormal`), so
the normal expressions are exactly those that can be built (`built_iff_isNormal`).
-/

namespace Semidefinite.Expr

variable {K : Type}

/-! ## Items -/

/-- Two items or more, of which at most the first is a number, and then one that is allowed. -/
structure Items (allowed : K → Prop) (ts : List (Expr K)) : Prop where
  two : 2 ≤ ts.length
  rest : ∀ t ∈ ts.tail, t.constant? = none
  lead : ∀ c, ts.head? = some (const c) → allowed c

theorem Items.cases {allowed : K → Prop} {ts : List (Expr K)} (h : Items allowed ts) :
    (∃ c rest, ts = const c :: rest ∧ allowed c ∧ withoutConstants rest = rest) ∨
      withoutConstants ts = ts := by
  obtain ⟨htwo, hrest, hlead⟩ := h
  cases ts with
  | nil => exact .inr rfl
  | cons t rest =>
    have hnone : withoutConstants rest = rest :=
      List.filter_eq_self.2 fun u hu => Option.isNone_iff_eq_none.2 (hrest u hu)
    cases ht : t.constant? with
    | some c =>
      obtain rfl := eq_const_of_constant? ht
      exact .inl ⟨c, rest, rfl, hlead c rfl, hnone⟩
    | none => exact .inr (by rw [withoutConstants_cons ht, hnone])

theorem items_withoutConstants {allowed : K → Prop} {ts : List (Expr K)}
    (htwo : 2 ≤ (withoutConstants ts).length) : Items allowed (withoutConstants ts) where
  two := htwo
  rest _ ht := (mem_withoutConstants.1 (List.mem_of_mem_tail ht)).2
  lead _ hc := nomatch (mem_withoutConstants.1 (List.mem_of_mem_head? hc)).2

theorem items_cons_withoutConstants {allowed : K → Prop} {c : K} {ts : List (Expr K)}
    (htwo : 2 ≤ (const c :: withoutConstants ts).length) (hc : allowed c) :
    Items allowed (const c :: withoutConstants ts) where
  two := htwo
  rest _ ht := (mem_withoutConstants.1 ht).2
  lead _ hd := by
    cases hd
    exact hc

/-! ## Normal expressions -/

variable [Scalar K]

/-- Flat sums without a zero, flat products without a zero or a one, and powers that can be neither
raised nor merged. -/
inductive IsNormal : Expr K → Prop where
  | const (c : K) : IsNormal (const c)
  | symbol (s : Symbol) : IsNormal (symbol s)
  | sum {ts : List (Expr K)} (parts : ∀ t ∈ ts, IsNormal t) (flat : ∀ t ∈ ts, ∀ us, t ≠ sum us)
      (items : Items (fun c => (c == 0) = false) ts) : IsNormal (sum ts)
  | product {ts : List (Expr K)} (parts : ∀ t ∈ ts, IsNormal t)
      (flat : ∀ t ∈ ts, ∀ us, t ≠ product us)
      (items : Items (fun c => (c == 0) = false ∧ (c == 1) = false) ts) : IsNormal (product ts)
  | power {base : Expr K} {n : Nat} (part : IsNormal base) (two : 2 ≤ n)
      (constant : ∀ c, base = const c → foldLimit < n)
      (merged : ∀ inner m, base = power inner m → exponentLimit < m * n) : IsNormal (power base n)

/-! ## What the constructors keep -/

section Closure
variable {e u : Expr K} {ts : List (Expr K)}

theorem isNormal_zero : IsNormal (zero : Expr K) := .const 0

theorem IsNormal.of_mem_summands (h : IsNormal e) (hu : u ∈ summands e) : IsNormal u := by
  induction e using inductionOn with
  | sum ts ih =>
    cases h with
    | sum parts =>
      rw [summands] at hu
      obtain ⟨t, ht, hu⟩ := mem_summandsList.1 hu
      exact ih t ht (parts t ht) hu
  | _ => rwa [List.mem_singleton.1 hu]

theorem IsNormal.of_mem_factors (h : IsNormal e) (hu : u ∈ factors e) : IsNormal u := by
  induction e using inductionOn with
  | product ts ih =>
    cases h with
    | product parts =>
      rw [factors] at hu
      obtain ⟨t, ht, hu⟩ := mem_factorsList.1 hu
      exact ih t ht (parts t ht) hu
  | _ => rwa [List.mem_singleton.1 hu]

theorem isNormal_of_mem_sumItems (h : ∀ t ∈ ts, IsNormal t) (hu : u ∈ sumItems ts) :
    IsNormal u := by
  rcases mem_sumItems hu with ⟨c, rfl⟩ | ⟨hu, -⟩
  · exact .const c
  · obtain ⟨t, ht, hu⟩ := mem_summandsList.1 hu
    exact (h t ht).of_mem_summands hu

theorem isNormal_of_mem_productItems (h : ∀ t ∈ ts, IsNormal t) (hu : u ∈ productItems ts) :
    IsNormal u := by
  rcases mem_productItems hu with ⟨c, rfl⟩ | ⟨hu, -⟩
  · exact .const c
  · obtain ⟨t, ht, hu⟩ := mem_factorsList.1 hu
    exact (h t ht).of_mem_factors hu

theorem isNormal_sumOf (h : ∀ t ∈ ts, IsNormal t) : IsNormal (sumOf ts) := by
  rcases sumOf_cases ts with ⟨-, hsum⟩ | ⟨only, hitems, hsum⟩ | ⟨htwo, hsum⟩
  · rw [hsum]
    exact isNormal_zero
  · rw [hsum]
    exact isNormal_of_mem_sumItems h (hitems ▸ List.mem_singleton_self only)
  · rw [hsum]
    refine .sum (fun t => isNormal_of_mem_sumItems h) (fun t => ne_sum_of_mem_sumItems) ?_
    rw [sumItems_eq] at htwo ⊢
    cases hzero : sumConstant ts == 0 with
    | true =>
      simp only [bne, hzero, Bool.not_true, Bool.false_eq_true, if_false] at htwo ⊢
      exact items_withoutConstants htwo
    | false =>
      simp only [bne, hzero, Bool.not_false, if_true] at htwo ⊢
      exact items_cons_withoutConstants htwo hzero

theorem isNormal_productOf (h : ∀ t ∈ ts, IsNormal t) : IsNormal (productOf ts) := by
  rcases productOf_cases ts with
    ⟨-, hproduct⟩ | ⟨hzero, ⟨-, hproduct⟩ | ⟨only, hitems, hproduct⟩ | ⟨htwo, hproduct⟩⟩
  · rw [hproduct]
    exact isNormal_zero
  · rw [hproduct]
    exact .const 1
  · rw [hproduct]
    exact isNormal_of_mem_productItems h (hitems ▸ List.mem_singleton_self only)
  · rw [hproduct]
    refine .product (fun t => isNormal_of_mem_productItems h)
      (fun t => ne_product_of_mem_productItems) ?_
    rw [productItems_eq] at htwo ⊢
    cases hone : productCoefficient ts == 1 with
    | true =>
      simp only [bne, hone, Bool.not_true, Bool.false_eq_true, if_false] at htwo ⊢
      exact items_withoutConstants htwo
    | false =>
      simp only [bne, hone, Bool.not_false, if_true] at htwo ⊢
      exact items_cons_withoutConstants htwo ⟨hzero, hone⟩

/-- Powers are raised or merged within the limits, and left alone beyond them. -/
theorem isNormal_powerOf (h : IsNormal e) (n : Nat) : IsNormal (powerOf e n) := by
  unfold powerOf
  by_cases hzero : n = 0
  · rw [if_pos hzero]
    exact .const 1
  by_cases hone : n = 1
  · rw [if_neg hzero, if_pos hone]
    exact h
  have htwo : 2 ≤ n := by omega
  rw [if_neg hzero, if_neg hone]
  cases h with
  | const c =>
    by_cases hfold : n ≤ foldLimit
    · simp only [if_pos hfold]
      exact .const _
    · simp only [if_neg hfold]
      exact .power (.const c) htwo (fun _ _ => Nat.lt_of_not_le hfold) nofun
  | @power inner m part htwo' constant merged =>
    have hm : m ≤ m * n := Nat.le_mul_of_pos_right m (by omega)
    by_cases hmerge : m * n ≤ exponentLimit
    · -- what kept the inner power alone keeps the larger one alone as well
      simp only [if_pos hmerge]
      refine .power part (htwo'.trans hm) (fun c hc => (constant c hc).trans_le hm) ?_
      intro inner' k hinner
      exact (merged inner' k hinner).trans_le (Nat.mul_le_mul_left k hm)
    · simp only [if_neg hmerge]
      refine .power (.power part htwo' constant merged) htwo nofun ?_
      rintro inner' k ⟨⟩
      exact Nat.lt_of_not_le hmerge
  | symbol s => exact .power (.symbol s) htwo nofun nofun
  | sum parts flat items => exact .power (.sum parts flat items) htwo nofun nofun
  | product parts flat items => exact .power (.product parts flat items) htwo nofun nofun

theorem isNormal_negate (h : IsNormal e) : IsNormal e.negate :=
  isNormal_productOf (List.forall_mem_cons.2 ⟨.const _, List.forall_mem_singleton.2 h⟩)

section Operators
variable {a b : Expr K}

theorem IsNormal.add (ha : IsNormal a) (hb : IsNormal b) : IsNormal (a + b) :=
  isNormal_sumOf (List.forall_mem_cons.2 ⟨ha, List.forall_mem_singleton.2 hb⟩)

theorem IsNormal.sub (ha : IsNormal a) (hb : IsNormal b) : IsNormal (a - b) :=
  ha.add (isNormal_negate hb)

theorem IsNormal.mul (ha : IsNormal a) (hb : IsNormal b) : IsNormal (a * b) :=
  isNormal_productOf (List.forall_mem_cons.2 ⟨ha, List.forall_mem_singleton.2 hb⟩)

end Operators

/-- What is multiplied out is normal, whatever it was. -/
theorem isNormal_expand (e : Expr K) : IsNormal e.expand := by
  refine isNormal_sumOf fun t ht => ?_
  obtain ⟨⟨m, c⟩, -, rfl⟩ := List.mem_map.1 ht
  refine isNormal_productOf (List.forall_mem_cons.2 ⟨.const c, fun u hu => ?_⟩)
  obtain ⟨⟨s, n⟩, -, rfl⟩ := List.mem_map.1 hu
  exact isNormal_powerOf (.symbol s) n

/-- The expressions that can be built of numbers and symbols. -/
inductive Built : Expr K → Prop where
  | const (c : K) : Built (const c)
  | symbol (s : Symbol) : Built (symbol s)
  | sumOf {ts : List (Expr K)} : (∀ t ∈ ts, Built t) → Built (sumOf ts)
  | productOf {ts : List (Expr K)} : (∀ t ∈ ts, Built t) → Built (productOf ts)
  | powerOf {base : Expr K} (n : Nat) : Built base → Built (powerOf base n)

theorem isNormal_of_built (h : Built e) : IsNormal e := by
  induction h with
  | const c => exact .const c
  | symbol s => exact .symbol s
  | sumOf _ ih => exact isNormal_sumOf ih
  | productOf _ ih => exact isNormal_productOf ih
  | powerOf n _ ih => exact isNormal_powerOf ih n

end Closure

/-! ## Normal expressions are what is built of their parts -/

section Rebuild
variable {e : Expr K} {ts : List (Expr K)} {base : Expr K} {n : Nat}

theorem sumItems_of_items [LawfulStart K] (flat : ∀ t ∈ ts, ∀ us, t ≠ sum us)
    (items : Items (fun c => (c == 0) = false) ts) : sumItems ts = ts := by
  have hself : summandsList ts = ts :=
    summandsList_eq_self fun t ht => summands_eq_self (flat t ht)
  rw [sumItems_eq, sumConstant, otherSummands, hself]
  rcases items.cases with ⟨c, rest, rfl, hc, hrest⟩ | hnone
  · rw [filterMap_cons_const, withoutConstants_cons_const, ← hrest, filterMap_withoutConstants,
      withoutConstants_idem, List.foldl_cons, List.foldl_nil, LawfulStart.zero_add hc]
    exact if_pos (by simp [bne, hc])
  · rw [← hnone, filterMap_withoutConstants, withoutConstants_idem]
    exact if_neg (by simp [bne, LawfulZero.zero_beq])

theorem sumOf_of_isNormal [LawfulStart K] (h : IsNormal (sum ts)) : sumOf ts = sum ts := by
  cases h with
  | sum parts flat items =>
    have hitems := sumItems_of_items flat items
    rw [sumOf_of_two (hitems.symm ▸ items.two), hitems]

theorem powerOf_of_isNormal (h : IsNormal (power base n)) : powerOf base n = power base n := by
  cases h with
  | power part two constant merged =>
    unfold powerOf
    rw [if_neg (by omega), if_neg (by omega)]
    cases base with
    | const c => exact if_neg (Nat.not_le_of_lt (constant c rfl))
    | power inner m => exact if_neg (Nat.not_le_of_lt (merged inner m rfl))
    | _ => rfl

variable [LawfulUnit K]

theorem parts_of_items (flat : ∀ t ∈ ts, ∀ us, t ≠ product us)
    (items : Items (fun c => (c == 0) = false ∧ (c == 1) = false) ts) :
    (productCoefficient ts == 0) = false ∧ productItems ts = ts := by
  have hself : factorsList ts = ts :=
    factorsList_eq_self fun t ht => factors_eq_self (flat t ht)
  rw [productItems_eq, productCoefficient, otherFactors, hself]
  rcases items.cases with ⟨c, rest, rfl, ⟨hzero, hone⟩, hrest⟩ | hnone
  · rw [filterMap_cons_const, withoutConstants_cons_const, ← hrest, filterMap_withoutConstants,
      withoutConstants_idem, List.foldl_cons, List.foldl_nil, LawfulUnit.one_mul]
    exact ⟨hzero, if_pos (by simp [bne, hone])⟩
  · rw [← hnone, filterMap_withoutConstants, withoutConstants_idem]
    exact ⟨LawfulOne.one_beq_zero, if_neg (by simp [bne, LawfulOne.one_beq_one])⟩

theorem productOf_of_isNormal (h : IsNormal (product ts)) : productOf ts = product ts := by
  cases h with
  | product parts flat items =>
    obtain ⟨hcoefficient, hitems⟩ := parts_of_items flat items
    rw [productOf_of_two hcoefficient (hitems.symm ▸ items.two), hitems]

/-- The normal expressions are exactly those that can be built. -/
theorem built_iff_isNormal : Built e ↔ IsNormal e := by
  refine ⟨isNormal_of_built, fun h => ?_⟩
  have hnormal := h
  induction h with
  | const c => exact .const c
  | symbol s => exact .symbol s
  | sum parts flat items ih =>
    rw [← sumOf_of_isNormal hnormal]
    exact .sumOf fun t ht => ih t ht (parts t ht)
  | product parts flat items ih =>
    rw [← productOf_of_isNormal hnormal]
    exact .productOf fun t ht => ih t ht (parts t ht)
  | power part two constant merged ih =>
    rw [← powerOf_of_isNormal hnormal]
    exact .powerOf _ (ih part)

theorem productOf_atom (hconstant : e.constant? = none) (hproduct : ∀ ts, e ≠ product ts) :
    productCoefficient [e] = 1 ∧ productOf [e] = e := by
  have hfactors : factorsList [e] = [e] :=
    factorsList_eq_self (List.forall_mem_singleton.2 (factors_eq_self hproduct))
  have hcoefficient : productCoefficient [e] = 1 := by
    rw [productCoefficient, hfactors, List.filterMap_cons_none hconstant]
    rfl
  have hothers : otherFactors [e] = [e] := by
    rw [otherFactors, hfactors, withoutConstants_cons hconstant]
    rfl
  rw [productOf_eq, productItems_eq, hcoefficient, hothers]
  simp [bne, LawfulOne.one_beq_one, LawfulOne.one_beq_zero]

theorem productOf_const {c : K} (hzero : (c == 0) = false) :
    productCoefficient [const c] = c ∧ productOf [const c] = const c := by
  have hcoefficient : productCoefficient [const c] = c := LawfulUnit.one_mul c
  have hothers : otherFactors [const c] = [] := rfl
  rw [productOf_eq, productItems_eq, hcoefficient, hothers]
  cases hone : c == 1 with
  | true =>
    obtain rfl := LawfulUnit.eq_one hone
    simp [bne, hone, hzero]
  | false => simp [bne, hone, hzero]

theorem productOf_singleton (h : IsNormal e) (hzero : e.isZero = false) :
    (productCoefficient [e] == 0) = false ∧ productOf [e] = e := by
  have hatom : e.constant? = none → (∀ ts, e ≠ product ts) →
      (productCoefficient [e] == 0) = false ∧ productOf [e] = e := fun hconstant hproduct => by
    obtain ⟨hcoefficient, hself⟩ := productOf_atom hconstant hproduct
    exact ⟨hcoefficient ▸ LawfulOne.one_beq_zero, hself⟩
  cases h with
  | const c =>
    obtain ⟨hcoefficient, hself⟩ := productOf_const hzero
    exact ⟨hcoefficient.symm ▸ hzero, hself⟩
  | @product ts parts flat items =>
    have hfactors : factorsList [product ts] = factorsList ts := List.append_nil _
    have hcoefficient : productCoefficient [product ts] = productCoefficient ts := by
      rw [productCoefficient, hfactors, productCoefficient]
    have hothers : otherFactors [product ts] = otherFactors ts := by
      rw [otherFactors, hfactors, otherFactors]
    rw [productOf_congr hcoefficient hothers, hcoefficient]
    exact ⟨(parts_of_items flat items).1, productOf_of_isNormal (.product parts flat items)⟩
  | symbol s => exact hatom rfl (by simp)
  | sum parts flat items => exact hatom rfl (by simp)
  | power part two constant merged => exact hatom rfl (by simp)

end Rebuild

/-! ## Exact numbers -/

theorem productCoefficient_cons_const (c : ℚ) (ts : List (Expr ℚ)) :
    productCoefficient (const c :: ts) = c * productCoefficient ts := by
  have hcons : productCoefficient (const c :: ts) =
      ((factorsList ts).filterMap constant?).foldl (· * ·) (1 * c) := rfl
  rw [hcons, productCoefficient, foldl_mul_eq_prod, foldl_mul_eq_prod, one_mul, one_mul]

theorem otherFactors_cons_const (c : ℚ) (ts : List (Expr ℚ)) :
    otherFactors (const c :: ts) = otherFactors ts := rfl

/-- Negating twice changes two signs of one coefficient. -/
theorem negate_negate {e : Expr ℚ} (h : IsNormal e) : e.negate.negate = e := by
  cases hzero : e.isZero with
  | true =>
    obtain ⟨c, rfl⟩ : ∃ c, e = const c := by
      cases e <;> first | exact ⟨_, rfl⟩ | cases hzero
    obtain rfl : c = 0 := beq_iff_eq.1 hzero
    exact (congrArg negate negate_zero).trans negate_zero
  | false =>
    obtain ⟨hcoefficient, hself⟩ := productOf_singleton h hzero
    have hne : (productCoefficient [const (-1), e] == 0) = false := by
      rw [productCoefficient_cons_const]
      simpa using hcoefficient
    have hparts : productCoefficient [e.negate] = productCoefficient [const (-1), e] ∧
        otherFactors [e.negate] = otherFactors [const (-1), e] := productOf_parts hne
    calc e.negate.negate = productOf [const (-1), e.negate] := rfl
      _ = productOf [e] := by
        refine productOf_congr ?_ ?_
        · rw [productCoefficient_cons_const, hparts.1, productCoefficient_cons_const]
          ring
        · rw [otherFactors_cons_const, hparts.2, otherFactors_cons_const]
      _ = e := hself

/-- The constructors and the operators keep the normal form, multiplying out reaches it, and
whatever the arguments are, all of them have the value of what they stand for. -/
theorem constructors_normalise :
    (∀ ts : List (Expr ℚ), (∀ t ∈ ts, IsNormal t) →
      IsNormal (sumOf ts) ∧ IsNormal (productOf ts)) ∧
    (∀ e : Expr ℚ, IsNormal e →
      (∀ n, IsNormal (powerOf e n)) ∧ IsNormal e.negate ∧ IsNormal (-e) ∧ e.negate.negate = e) ∧
    (∀ a b : Expr ℚ, IsNormal a → IsNormal b →
      IsNormal (a + b) ∧ IsNormal (a - b) ∧ IsNormal (a * b)) ∧
    (∀ e : Expr ℚ, IsNormal e.expand) ∧
    ∀ x : Symbol → ℚ,
      (∀ ts, eval x (sumOf ts) = (ts.map (eval x)).sum ∧
        eval x (productOf ts) = (ts.map (eval x)).prod) ∧
      (∀ e, (∀ n, eval x (powerOf e n) = eval x e ^ n) ∧ eval x e.negate = -eval x e ∧
        eval x (-e) = -eval x e) ∧
      ∀ a b, eval x (a + b) = eval x a + eval x b ∧ eval x (a - b) = eval x a - eval x b ∧
        eval x (a * b) = eval x a * eval x b := by
  refine ⟨fun ts h => ⟨isNormal_sumOf h, isNormal_productOf h⟩, fun e h => ?_,
    fun a b ha hb => ⟨ha.add hb, ha.sub hb, ha.mul hb⟩, isNormal_expand, fun x => ?_⟩
  · exact ⟨isNormal_powerOf h, isNormal_negate h, isNormal_negate h, negate_negate h⟩
  · exact ⟨fun ts => ⟨eval_sumOf x ts, eval_productOf x ts⟩,
      fun e => ⟨eval_powerOf x e, eval_negate x e, eval_negate x e⟩,
      fun a b => ⟨eval_add x a b, eval_sub x a b, eval_mul x a b⟩⟩

/-- A product with a sum, a number raised beyond the limit, and a power of a power that do not fit
into one. -/
theorem constructors_normalise_of_large_powers :
    let x : Expr ℚ := symbol { name := "x" }
    let large : Expr ℚ := power (power x (2 ^ 31)) 2
    let e : Expr ℚ := product [const (-3), sum [const 2, x], power (const 5) (2 ^ 31), large]
    IsNormal e ∧ IsNormal (powerOf large 3) ∧ IsNormal (sumOf [e, e]) ∧ IsNormal (e - large) ∧
      e.negate.negate = e := by
  intro x large e
  have hx : IsNormal x := .symbol _
  have hlarge : IsNormal large := by
    refine .power (.power hx (by decide) nofun nofun) (by decide) nofun ?_
    rintro inner m ⟨⟩
    decide
  have hfive : IsNormal (power (const (5 : ℚ)) (2 ^ 31)) :=
    .power (.const 5) (by decide) (fun _ _ => by decide) nofun
  have hsum : IsNormal (sum [const 2, x]) := by
    refine .sum ?_ ?_ ⟨by decide, ?_, ?_⟩
    · simpa using ⟨.const 2, hx⟩
    · simp [x]
    · simp [x, constant?]
    · simp
  have he : IsNormal e := by
    refine .product ?_ ?_ ⟨by decide, ?_, ?_⟩
    · simpa using ⟨.const (-3), hsum, hfive, hlarge⟩
    · simp [large]
    · simp [large, constant?]
    · rintro c ⟨⟩
      exact ⟨by decide, by decide⟩
  obtain ⟨hlists, hsingle, hpairs, -⟩ := constructors_normalise
  exact ⟨he, (hsingle large hlarge).1 3, (hlists [e, e] (by simpa using he)).1,
    (hpairs e large he hlarge).2.1, (hsingle e he).2.2.2⟩

end Semidefinite.Expr
