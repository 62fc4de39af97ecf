import Mathlib.Algebra.MvPolynomial.Funext
import Mathlib.Algebra.CharZero.Infinite
import Mathlib.Algebra.Field.Rat
import Mathlib.Tactic.Ring
import Semidefinite.Expr.Basic

/-!
# The value of an expression

`Expr.eval x e` is the value of `e` with the symbols read as `x`, in any
algebra over the rationals. Two algebras matter: the rationals themselves,
where it is a number, and the polynomials in the symbols, where it is the
polynomial `Expr.poly e` that the expression denotes. The normalising
constructors have the value of what they build (`eval_sumOf`, `eval_productOf`,
`eval_powerOf`, `eval_negate`).
-/

namespace Semidefinite

/-! ## Powers of constants -/

/-- After `n` bits the square is `base ^ 2 ^ n`, and the result has the bits read so far. -/
theorem Scalar.power_fold (base : ℚ) (exponent n : ℕ) :
    (List.range n).foldl
      (fun (result, square) i =>
        (if exponent.testBit i then result * square else result, square * square))
      (1, base) = (base ^ (exponent % 2 ^ n), base ^ 2 ^ n) := by
  induction n with
  | zero => simp [Nat.mod_one]
  | succ n ih =>
    rw [List.range_succ, List.foldl_append, ih]
    simp only [List.foldl_cons, List.foldl_nil]
    have hmod : exponent % 2 ^ (n + 1) =
        exponent % 2 ^ n + 2 ^ n * (exponent.testBit n).toNat := by
      rw [Nat.mod_pow_succ, Nat.toNat_testBit]
    rw [hmod, pow_succ, mul_two, pow_add, pow_add, pow_mul]
    cases exponent.testBit n <;> simp

theorem Scalar.power_eq (base : ℚ) (exponent : ℕ) :
    Scalar.power base exponent = base ^ exponent := by
  have h : exponent < 2 ^ (exponent.log2 + 1) := Nat.lt_log2_self
  have hfold := Scalar.power_fold base exponent (exponent.log2 + 1)
  rw [Nat.mod_eq_of_lt h] at hfold
  exact congrArg Prod.fst hfold

namespace Expr

/-- Induction over a tree, with the hypothesis for every part of a sum or product. -/
theorem inductionOn {K : Type} {P : Expr K → Prop} (e : Expr K)
    (const : ∀ c, P (const c)) (symbol : ∀ s, P (symbol s))
    (sum : ∀ ts, (∀ t ∈ ts, P t) → P (sum ts))
    (product : ∀ ts, (∀ t ∈ ts, P t) → P (product ts))
    (power : ∀ base n, P base → P (power base n)) : P e := by
  refine Expr.rec (motive_1 := P) (motive_2 := fun ts => ∀ t ∈ ts, P t)
    const symbol sum product (fun base n ih => power base n ih) ?_ ?_ e
  · intro t ht
    cases ht
  · intro t ts ht hts u hu
    rcases List.mem_cons.1 hu with rfl | hu
    · exact ht
    · exact hts u hu

/-! ## Parts of lists -/

section Lists
variable {K : Type}

theorem occurrencesList_eq (ts : List (Expr K)) :
    occurrencesList ts = ts.flatMap occurrences := by
  induction ts with
  | nil => rw [occurrencesList, List.flatMap_nil]
  | cons t ts ih => rw [occurrencesList, ih, List.flatMap_cons]

theorem summandsList_eq (ts : List (Expr K)) : summandsList ts = ts.flatMap summands := by
  induction ts with
  | nil => rw [summandsList, List.flatMap_nil]
  | cons t ts ih => rw [summandsList, ih, List.flatMap_cons]

theorem factorsList_eq (ts : List (Expr K)) : factorsList ts = ts.flatMap factors := by
  induction ts with
  | nil => rw [factorsList, List.flatMap_nil]
  | cons t ts ih => rw [factorsList, ih, List.flatMap_cons]

theorem mem_occurrencesList {s : Symbol} {ts : List (Expr K)} :
    s ∈ occurrencesList ts ↔ ∃ t ∈ ts, s ∈ t.occurrences := by
  rw [occurrencesList_eq, List.mem_flatMap]

theorem mem_summandsList {u : Expr K} {ts : List (Expr K)} :
    u ∈ summandsList ts ↔ ∃ t ∈ ts, u ∈ summands t := by
  rw [summandsList_eq, List.mem_flatMap]

theorem mem_factorsList {u : Expr K} {ts : List (Expr K)} :
    u ∈ factorsList ts ↔ ∃ t ∈ ts, u ∈ factors t := by
  rw [factorsList_eq, List.mem_flatMap]

theorem summandsList_eq_self {ts : List (Expr K)} (h : ∀ t ∈ ts, summands t = [t]) :
    summandsList ts = ts := by
  rw [summandsList_eq, List.flatMap_congr h, List.flatMap_singleton']

theorem factorsList_eq_self {ts : List (Expr K)} (h : ∀ t ∈ ts, factors t = [t]) :
    factorsList ts = ts := by
  rw [factorsList_eq, List.flatMap_congr h, List.flatMap_singleton']

theorem summands_eq_self {e : Expr K} (h : ∀ ts, e ≠ sum ts) : summands e = [e] := by
  rw [summands]
  exact h

theorem factors_eq_self {e : Expr K} (h : ∀ ts, e ≠ product ts) : factors e = [e] := by
  rw [factors]
  exact h

theorem ne_sum_of_mem_summands {e u : Expr K} (h : u ∈ summands e) : ∀ ts, u ≠ sum ts := by
  induction e using inductionOn with
  | sum ts ih =>
    rw [summands] at h
    obtain ⟨t, ht, hu⟩ := mem_summandsList.1 h
    exact ih t ht hu
  | _ =>
    obtain rfl : u = _ := by simpa [summands] using h
    nofun

theorem ne_product_of_mem_factors {e u : Expr K} (h : u ∈ factors e) : ∀ ts, u ≠ product ts := by
  induction e using inductionOn with
  | product ts ih =>
    rw [factors] at h
    obtain ⟨t, ht, hu⟩ := mem_factorsList.1 h
    exact ih t ht hu
  | _ =>
    obtain rfl : u = _ := by simpa [factors] using h
    nofun

theorem mem_withoutConstants {u : Expr K} {ts : List (Expr K)} :
    u ∈ withoutConstants ts ↔ u ∈ ts ∧ u.constant? = none := by
  unfold withoutConstants
  rw [List.mem_filter, Option.isNone_iff_eq_none]

end Lists

/-! ## What the constructors build -/

section Build
variable {K : Type} [Scalar K]

/-- The items of `sumOf ts`: the constant, unless it is zero, and the other summands. -/
def sumItems (ts : List (Expr K)) : List (Expr K) :=
  let total := ((summandsList ts).filterMap constant?).foldl (· + ·) 0
  if total != 0 then const total :: withoutConstants (summandsList ts)
  else withoutConstants (summandsList ts)

theorem sumOf_cases (ts : List (Expr K)) :
    (sumItems ts = [] ∧ sumOf ts = zero) ∨
    (∃ only, sumItems ts = [only] ∧ sumOf ts = only) ∨
    (2 ≤ (sumItems ts).length ∧ sumOf ts = sum (sumItems ts)) := by
  rcases h : sumItems ts with _ | ⟨a, _ | ⟨b, rest⟩⟩ <;> simp only [sumItems] at h
  · exact .inl ⟨rfl, by simp only [sumOf, h]⟩
  · exact .inr (.inl ⟨a, rfl, by simp only [sumOf, h]⟩)
  · exact .inr (.inr ⟨by simp, by simp only [sumOf, h]⟩)

theorem sumOf_of_two {ts : List (Expr K)} (h : 2 ≤ (sumItems ts).length) :
    sumOf ts = sum (sumItems ts) := by
  rcases sumOf_cases ts with ⟨hnone, -⟩ | ⟨only, hone, -⟩ | ⟨-, hsum⟩
  · simp [hnone] at h
  · simp [hone] at h
  · exact hsum

theorem mem_sumItems {ts : List (Expr K)} {t : Expr K} (h : t ∈ sumItems ts) :
    (∃ c, t = const c) ∨ (t ∈ summandsList ts ∧ t.constant? = none) := by
  simp only [sumItems] at h
  split at h
  · rcases List.mem_cons.1 h with rfl | h
    · exact .inl ⟨_, rfl⟩
    · exact .inr (mem_withoutConstants.1 h)
  · exact .inr (mem_withoutConstants.1 h)

def productCoefficient (ts : List (Expr K)) : K :=
  ((factorsList ts).filterMap constant?).foldl (· * ·) 1

/-- The items of `productOf ts`: the constant, unless it is one, and the other factors. -/
def productItems (ts : List (Expr K)) : List (Expr K) :=
  if productCoefficient ts != 1 then
    const (productCoefficient ts) :: withoutConstants (factorsList ts)
  else withoutConstants (factorsList ts)

theorem productOf_eq (ts : List (Expr K)) :
    productOf ts = if productCoefficient ts == 0 then zero else
      match productItems ts with
      | [] => const 1
      | [only] => only
      | items => product items := rfl

theorem productOf_cases (ts : List (Expr K)) :
    ((productCoefficient ts == 0) = true ∧ productOf ts = zero) ∨
    ((productCoefficient ts == 0) = false ∧
      ((productItems ts = [] ∧ productOf ts = const 1) ∨
      (∃ only, productItems ts = [only] ∧ productOf ts = only) ∨
      (2 ≤ (productItems ts).length ∧ productOf ts = product (productItems ts)))) := by
  rw [productOf_eq]
  cases hzero : productCoefficient ts == 0 with
  | true => exact .inl ⟨rfl, rfl⟩
  | false =>
    rcases hitems : productItems ts with _ | ⟨a, _ | ⟨b, rest⟩⟩
    · exact .inr ⟨rfl, .inl ⟨rfl, rfl⟩⟩
    · exact .inr ⟨rfl, .inr (.inl ⟨a, rfl, rfl⟩)⟩
    · exact .inr ⟨rfl, .inr (.inr ⟨by simp, rfl⟩)⟩

theorem productOf_of_two {ts : List (Expr K)} (hcoefficient : (productCoefficient ts == 0) = false)
    (h : 2 ≤ (productItems ts).length) : productOf ts = product (productItems ts) := by
  rcases productOf_cases ts with
    ⟨hzero, -⟩ | ⟨-, ⟨hnone, -⟩ | ⟨only, hone, -⟩ | ⟨-, hproduct⟩⟩
  · simp [hcoefficient] at hzero
  · simp [hnone] at h
  · simp [hone] at h
  · exact hproduct

theorem mem_productItems {ts : List (Expr K)} {t : Expr K} (h : t ∈ productItems ts) :
    (∃ c, t = const c) ∨ (t ∈ factorsList ts ∧ t.constant? = none) := by
  unfold productItems at h
  split at h
  · rcases List.mem_cons.1 h with rfl | h
    · exact .inl ⟨_, rfl⟩
    · exact .inr (mem_withoutConstants.1 h)
  · exact .inr (mem_withoutConstants.1 h)

end Build

/-! ## Constants among the parts -/

theorem eq_const_of_constant? {K : Type} {e : Expr K} {c : K} (h : e.constant? = some c) :
    e = const c := by
  cases e <;> simp_all [constant?]

theorem withoutConstants_cons_const {K : Type} (c : K) (ts : List (Expr K)) :
    withoutConstants (const c :: ts) = withoutConstants ts := rfl

theorem withoutConstants_cons {K : Type} {e : Expr K} (h : e.constant? = none)
    (ts : List (Expr K)) : withoutConstants (e :: ts) = e :: withoutConstants ts := by
  simp [withoutConstants, h]

theorem foldl_add_eq_sum (cs : List ℚ) (c : ℚ) : cs.foldl (· + ·) c = c + cs.sum := by
  induction cs generalizing c with
  | nil => simp
  | cons d ds ih => rw [List.foldl_cons, ih, List.sum_cons, add_assoc]

theorem foldl_mul_eq_prod (cs : List ℚ) (c : ℚ) : cs.foldl (· * ·) c = c * cs.prod := by
  induction cs generalizing c with
  | nil => simp
  | cons d ds ih => rw [List.foldl_cons, ih, List.prod_cons, mul_assoc]

section Additive
variable {M : Type*} [AddCommMonoid M] {g : Expr ℚ → M}

/-- `g` takes sums of constants to sums. -/
structure AdditiveOnConstants (g : Expr ℚ → M) : Prop where
  zero : g (const 0) = 0
  add : ∀ c d, g (const (c + d)) = g (const c) + g (const d)

/-- The constants of a list and the rest add up to the whole list. -/
theorem AdditiveOnConstants.sum_split (hg : AdditiveOnConstants g) (ts : List (Expr ℚ)) :
    g (const (ts.filterMap constant?).sum) + ((withoutConstants ts).map g).sum =
      (ts.map g).sum := by
  induction ts with
  | nil => simp [withoutConstants, hg.zero]
  | cons t ts ih =>
    rw [List.map_cons, List.sum_cons, ← ih]
    cases h : t.constant? with
    | some c =>
      obtain rfl := eq_const_of_constant? h
      rw [List.filterMap_cons_some h, withoutConstants_cons_const, List.sum_cons, hg.add, add_assoc]
    | none =>
      rw [List.filterMap_cons_none h, withoutConstants_cons h, List.map_cons, List.sum_cons]
      exact add_left_comm _ _ _

/-- Adding the constants up first does not change the sum over the summands. -/
theorem AdditiveOnConstants.sum_map_sumItems (hg : AdditiveOnConstants g) (ts : List (Expr ℚ)) :
    ((sumItems ts).map g).sum = ((summandsList ts).map g).sum := by
  rw [← hg.sum_split (summandsList ts), sumItems, foldl_add_eq_sum, zero_add]
  split
  · rw [List.map_cons, List.sum_cons]
  · rename_i h
    have h : (List.filterMap constant? (summandsList ts)).sum = 0 := by simpa using h
    rw [h, hg.zero, zero_add]

end Additive

section Eval
variable {R : Type*} [CommRing R] [Algebra ℚ R]

mutual

/-- The value of a tree with its symbols read as `x`. -/
def eval (x : Symbol → R) : Expr ℚ → R
  | const c => algebraMap ℚ R c
  | symbol s => x s
  | sum ts => evalSum x ts
  | product ts => evalProduct x ts
  | power base n => eval x base ^ n

def evalSum (x : Symbol → R) : List (Expr ℚ) → R
  | [] => 0
  | e :: es => eval x e + evalSum x es

def evalProduct (x : Symbol → R) : List (Expr ℚ) → R
  | [] => 1
  | e :: es => eval x e * evalProduct x es

end

variable (x : Symbol → R)

@[simp] theorem eval_const (c : ℚ) : eval x (const c) = algebraMap ℚ R c := by rw [eval]

@[simp] theorem eval_symbol (s : Symbol) : eval x (symbol s) = x s := by rw [eval]

@[simp] theorem eval_power (base : Expr ℚ) (n : ℕ) :
    eval x (power base n) = eval x base ^ n := by rw [eval]

theorem evalSum_eq (ts : List (Expr ℚ)) : evalSum x ts = (ts.map (eval x)).sum := by
  induction ts with
  | nil => rw [evalSum]; rfl
  | cons t ts ih => rw [evalSum, ih, List.map_cons, List.sum_cons]

theorem evalProduct_eq (ts : List (Expr ℚ)) : evalProduct x ts = (ts.map (eval x)).prod := by
  induction ts with
  | nil => rw [evalProduct]; rfl
  | cons t ts ih => rw [evalProduct, ih, List.map_cons, List.prod_cons]

@[simp] theorem eval_sum (ts : List (Expr ℚ)) :
    eval x (sum ts) = (ts.map (eval x)).sum := by rw [eval, evalSum_eq]

@[simp] theorem eval_product (ts : List (Expr ℚ)) :
    eval x (product ts) = (ts.map (eval x)).prod := by rw [eval, evalProduct_eq]

/-! ## Parts of sums and products -/

theorem sum_eval_summands (e : Expr ℚ) : ((summands e).map (eval x)).sum = eval x e := by
  induction e using inductionOn with
  | sum ts ih =>
    rw [summands, summandsList_eq, List.flatMap_def, List.map_flatten, List.sum_flatten,
      List.map_map, List.map_map, eval_sum]
    exact congrArg List.sum (List.map_congr_left ih)
  | _ => simp [summands]

theorem sum_eval_summandsList (ts : List (Expr ℚ)) :
    ((summandsList ts).map (eval x)).sum = (ts.map (eval x)).sum := by
  have h := sum_eval_summands x (sum ts)
  rwa [summands, eval_sum] at h

theorem prod_eval_factors (e : Expr ℚ) : ((factors e).map (eval x)).prod = eval x e := by
  induction e using inductionOn with
  | product ts ih =>
    rw [factors, factorsList_eq, List.flatMap_def, List.map_flatten, List.prod_flatten,
      List.map_map, List.map_map, eval_product]
    exact congrArg List.prod (List.map_congr_left ih)
  | _ => simp [factors]

theorem prod_eval_factorsList (ts : List (Expr ℚ)) :
    ((factorsList ts).map (eval x)).prod = (ts.map (eval x)).prod := by
  have h := prod_eval_factors x (product ts)
  rwa [factors, eval_product] at h

theorem prod_eval_split (ts : List (Expr ℚ)) :
    algebraMap ℚ R (ts.filterMap constant?).prod * ((withoutConstants ts).map (eval x)).prod =
      (ts.map (eval x)).prod := by
  induction ts with
  | nil => simp [withoutConstants]
  | cons t ts ih =>
    rw [List.map_cons, List.prod_cons, ← ih]
    cases h : t.constant? with
    | some c =>
      obtain rfl := eq_const_of_constant? h
      rw [List.filterMap_cons_some h, withoutConstants_cons_const, List.prod_cons, map_mul,
        eval_const]
      ring
    | none =>
      rw [List.filterMap_cons_none h, withoutConstants_cons h, List.map_cons, List.prod_cons]
      ring

/-! ## Normalising constructors -/

theorem additiveOnConstants_eval : AdditiveOnConstants (eval x) where
  zero := by rw [eval_const, map_zero]
  add c d := by rw [eval_const, eval_const, eval_const, map_add]

theorem eval_sumOf (ts : List (Expr ℚ)) : eval x (sumOf ts) = (ts.map (eval x)).sum := by
  rw [← sum_eval_summandsList x ts, ← (additiveOnConstants_eval x).sum_map_sumItems]
  rcases sumOf_cases ts with ⟨hi, ho⟩ | ⟨only, hi, ho⟩ | ⟨-, ho⟩
  · rw [hi, ho]
    simp [zero]
  · rw [hi, ho]
    simp
  · rw [ho, eval_sum]

theorem eval_productOf (ts : List (Expr ℚ)) :
    eval x (productOf ts) = (ts.map (eval x)).prod := by
  have hsplit := prod_eval_split x (factorsList ts)
  rw [prod_eval_factorsList] at hsplit
  have hcoefficient : productCoefficient ts = ((factorsList ts).filterMap constant?).prod := by
    rw [productCoefficient, foldl_mul_eq_prod, one_mul]
  have hitems : ((productItems ts).map (eval x)).prod = (ts.map (eval x)).prod := by
    rw [← hsplit, productItems, hcoefficient]
    split
    · rw [List.map_cons, List.prod_cons, eval_const]
    · rename_i h
      have h : (List.filterMap constant? (factorsList ts)).prod = 1 := by simpa using h
      rw [h, map_one, one_mul]
  rcases productOf_cases ts with ⟨hz, ho⟩ | ⟨-, ⟨hi, ho⟩ | ⟨only, hi, ho⟩ | ⟨-, ho⟩⟩
  · have hz : productCoefficient ts = 0 := by simpa using hz
    rw [← hsplit, ← hcoefficient, hz, ho, map_zero, zero_mul]
    simp [zero]
  · rw [← hitems, hi, ho]
    simp
  · rw [← hitems, hi, ho]
    simp
  · rw [← hitems, ho, eval_product]

theorem eval_powerOf (base : Expr ℚ) (n : ℕ) :
    eval x (powerOf base n) = eval x base ^ n := by
  unfold powerOf
  split
  · rename_i h
    simp [h]
  split
  · rename_i h
    simp [h]
  cases base with
  | const c =>
    simp only
    split
    · rw [eval_const, Scalar.power_eq, map_pow, eval_const]
    · exact eval_power x _ n
  | power inner m =>
    simp only
    split
    · rw [eval_power, eval_power, pow_mul]
    · exact eval_power x _ n
  | _ => exact eval_power x _ n

theorem eval_negate (e : Expr ℚ) : eval x e.negate = -eval x e := by
  rw [negate, eval_productOf]
  simp

theorem eval_add (a b : Expr ℚ) : eval x (a + b) = eval x a + eval x b :=
  (eval_sumOf x [a, b]).trans (by simp)

theorem eval_mul (a b : Expr ℚ) : eval x (a * b) = eval x a * eval x b :=
  (eval_productOf x [a, b]).trans (by simp)

theorem eval_sub (a b : Expr ℚ) : eval x (a - b) = eval x a - eval x b :=
  (eval_sumOf x [a, b.negate]).trans (by simp [eval_negate, sub_eq_add_neg])

theorem eval_of_isZero {e : Expr ℚ} (h : e.isZero = true) : eval x e = 0 := by
  cases e <;> simp_all [isZero]

end Eval

/-! ## The polynomial of an expression -/

noncomputable def poly (e : Expr ℚ) : MvPolynomial Symbol ℚ :=
  eval MvPolynomial.X e

/-- Every value of a tree is read off its polynomial. -/
theorem aeval_poly {R : Type*} [CommRing R] [Algebra ℚ R] (x : Symbol → R) (e : Expr ℚ) :
    MvPolynomial.aeval x e.poly = eval x e := by
  unfold poly
  induction e using inductionOn with
  | const c => simp
  | symbol s => simp
  | sum ts ih =>
    rw [eval_sum, eval_sum, map_list_sum, List.map_map]
    exact congrArg List.sum (List.map_congr_left ih)
  | product ts ih =>
    rw [eval_product, eval_product, map_list_prod, List.map_map]
    exact congrArg List.prod (List.map_congr_left ih)
  | power base n ih => rw [eval_power, eval_power, map_pow, ih]

theorem poly_eq_iff {a b : Expr ℚ} :
    a.poly = b.poly ↔ ∀ x : Symbol → ℚ, eval x a = eval x b := by
  refine ⟨fun h x => ?_, fun h => ?_⟩
  · rw [← aeval_poly, h, aeval_poly]
  · refine MvPolynomial.funext fun x => ?_
    have hx := h x
    rwa [← aeval_poly, ← aeval_poly] at hx

end Expr

end Semidefinite
