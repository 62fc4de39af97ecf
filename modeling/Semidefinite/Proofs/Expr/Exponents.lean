import Semidefinite.Proofs.Expr.Expansion
import Semidefinite.Proofs.Order

/-!
# Exponents

Exponents are natural numbers here and words of 32 bits in memory. They are the same for an
expression whose degree is such a word: no exponent that is formed by multiplying it out, or
by filing its terms, exceeds the degree (`exponentsFit_of_degree`). Normalising raises no
degree, so differences of such expressions are such expressions (`degree_sub_le`).
-/

namespace Semidefinite

/-! ## Total degrees -/

/-- The sum of the exponents. -/
def Monomial.degree (m : Monomial) : Nat :=
  m.sum fun _ n => n

namespace Monomial

theorem additive_degree : Tally.Additive fun (_ : Symbol) (n : Nat) => n where
  start _ n := Nat.zero_add n
  add _ _ _ := rfl

theorem degree_mul (m n : Monomial) : (mul m n).degree = m.degree + n.degree :=
  Tally.sum_merge additive_degree m n

theorem degree_ofList (powers : List (Symbol × Nat)) :
    degree (Tally.ofList powers) = (powers.map Prod.snd).sum :=
  Tally.sum_ofList additive_degree powers

theorem exponent_le_degree {m : Monomial} {power : Symbol × Nat} (h : power ∈ m.entries) :
    power.2 ≤ m.degree :=
  List.le_sum_of_mem (List.mem_map_of_mem h)

end Monomial

namespace Expr

variable {K : Type}

mutual

/-- The degree that an expression shows, whether or not it cancels. A power shows that of its base
even with the exponent zero, since the base is multiplied out first. -/
def degree : Expr K → Nat
  | const _ => 0
  | symbol _ => 1
  | sum ts => degreeMax ts
  | product ts => degreeSum ts
  | power base n => max 1 n * degree base

def degreeMax : List (Expr K) → Nat
  | [] => 0
  | e :: es => max (degree e) (degreeMax es)

def degreeSum : List (Expr K) → Nat
  | [] => 0
  | e :: es => degree e + degreeSum es

end

theorem degreeMax_le {ts : List (Expr K)} {n : Nat} :
    degreeMax ts ≤ n ↔ ∀ t ∈ ts, t.degree ≤ n := by
  induction ts with
  | nil => simp [degreeMax]
  | cons t ts ih => rw [degreeMax, Nat.max_le, ih, List.forall_mem_cons]

theorem degreeSum_eq (ts : List (Expr K)) : degreeSum ts = (ts.map degree).sum := by
  induction ts with
  | nil => rfl
  | cons t ts ih => rw [degreeSum, ih, List.map_cons, List.sum_cons]

theorem degree_le_of_mem_sum {t : Expr K} {ts : List (Expr K)} (h : t ∈ ts) :
    t.degree ≤ (sum ts).degree := by
  rw [degree]
  exact degreeMax_le.1 le_rfl t h

theorem degree_le_of_mem_product {t : Expr K} {ts : List (Expr K)} (h : t ∈ ts) :
    t.degree ≤ (product ts).degree := by
  rw [degree, degreeSum_eq]
  exact List.le_sum_of_mem (List.mem_map_of_mem h)

theorem degreeSum_le_of_sublist {ts us : List (Expr K)} (h : us.Sublist ts) :
    degreeSum us ≤ degreeSum ts := by
  rw [degreeSum_eq, degreeSum_eq]
  exact (h.map degree).sum_le_sum fun _ _ => Nat.zero_le _

theorem mul_degree_le {base : Expr K} {k n : Nat} (h : k ≤ max 1 n) :
    k * base.degree ≤ (power base n).degree := by
  rw [degree]
  exact Nat.mul_le_mul_right _ h

/-! ## Normalising -/

section Normalising

theorem degree_le_of_mem_summands {e : Expr K} : ∀ t ∈ summands e, t.degree ≤ e.degree := by
  induction e using inductionOn with
  | sum ts ih =>
    intro t ht
    rw [summands] at ht
    obtain ⟨u, hu, ht⟩ := mem_summandsList.1 ht
    exact (ih u hu t ht).trans (degree_le_of_mem_sum hu)
  | _ => simp [summands]

theorem degreeSum_factors (e : Expr K) : degreeSum (factors e) = e.degree := by
  induction e using inductionOn with
  | product ts ih =>
    rw [factors, degree]
    induction ts with
    | nil => rfl
    | cons t ts iht =>
      have hrest := iht fun u hu => ih u (List.mem_cons_of_mem _ hu)
      rw [factorsList, degreeSum, degreeSum_eq, List.map_append, List.sum_append, ← degreeSum_eq,
        ← degreeSum_eq, ih t List.mem_cons_self, hrest]
  | _ => rfl

theorem degreeSum_factorsList (ts : List (Expr K)) : degreeSum (factorsList ts) = degreeSum ts := by
  have h := degreeSum_factors (product ts)
  rwa [factors, degree] at h

variable [Scalar K]

theorem degree_sumOf_le {ts : List (Expr K)} {n : Nat} (h : ∀ t ∈ ts, t.degree ≤ n) :
    (sumOf ts).degree ≤ n := by
  have hitems : ∀ t ∈ sumItems ts, t.degree ≤ n := by
    intro t ht
    rcases mem_sumItems ht with ⟨c, rfl⟩ | ⟨ht, -⟩
    · rw [degree]
      exact Nat.zero_le n
    · obtain ⟨u, hu, ht⟩ := mem_summandsList.1 ht
      exact (degree_le_of_mem_summands t ht).trans (h u hu)
  rcases sumOf_cases ts with ⟨-, hsum⟩ | ⟨only, hone, hsum⟩ | ⟨-, hsum⟩ <;> rw [hsum]
  · rw [zero, degree]
    exact Nat.zero_le n
  · exact hitems only (hone ▸ List.mem_singleton_self only)
  · rw [degree]
    exact degreeMax_le.2 hitems

theorem degreeSum_productItems_le (ts : List (Expr K)) :
    degreeSum (productItems ts) ≤ degreeSum ts := by
  have hothers : degreeSum (withoutConstants (factorsList ts)) ≤ degreeSum ts := by
    rw [← degreeSum_factorsList ts]
    exact degreeSum_le_of_sublist List.filter_sublist
  unfold productItems
  split
  · rw [degreeSum, degree, Nat.zero_add]
    exact hothers
  · exact hothers

theorem degree_productOf_le (ts : List (Expr K)) : (productOf ts).degree ≤ degreeSum ts := by
  have hitems := degreeSum_productItems_le ts
  rcases productOf_cases ts with
    ⟨-, hproduct⟩ | ⟨-, ⟨-, hproduct⟩ | ⟨only, hone, hproduct⟩ | ⟨-, hproduct⟩⟩ <;> rw [hproduct]
  · rw [zero, degree]
    exact Nat.zero_le _
  · rw [degree]
    exact Nat.zero_le _
  · rwa [hone, degreeSum, degreeSum, Nat.add_zero] at hitems
  · rwa [degree]

theorem degree_negate_le (e : Expr K) : e.negate.degree ≤ e.degree := by
  have h := degree_productOf_le [const (-1), e]
  rwa [degreeSum, degreeSum, degreeSum, degree, Nat.zero_add, Nat.add_zero] at h

theorem degree_sub_le {a b : Expr K} {n : Nat} (ha : a.degree ≤ n) (hb : b.degree ≤ n) :
    (a - b).degree ≤ n := by
  change (sumOf [a, b.negate]).degree ≤ n
  refine degree_sumOf_le fun t ht => ?_
  rcases List.mem_cons.1 ht with rfl | ht
  · exact ha
  · rw [List.mem_singleton.1 ht]
    exact b.degree_negate_le.trans hb

end Normalising

end Expr

/-! ## Multiplying out -/

namespace Polynomial

variable {K : Type}

/-- No monomial has more than the given degree. -/
def DegreeLe (p : Polynomial K) (n : Nat) : Prop :=
  ∀ m ∈ p.keys, m.degree ≤ n

theorem degreeLe_empty (n : Nat) : DegreeLe (Tally.empty : Polynomial K) n := nofun

theorem DegreeLe.mono {p : Polynomial K} {k n : Nat} (h : p.DegreeLe k) (hle : k ≤ n) :
    p.DegreeLe n :=
  fun m hm => (h m hm).trans hle

variable [Scalar K]

theorem degreeLe_const (c : K) (n : Nat) : (const c).DegreeLe n := by
  intro m hm
  obtain rfl : m = Tally.empty := by simpa using Tally.mem_keys_ofList.1 hm
  exact Nat.zero_le n

theorem degreeLe_symbol (s : Symbol) : (symbol s : Polynomial K).DegreeLe 1 := by
  intro m hm
  obtain rfl : m = ⟨[(s, 1)]⟩ := by simpa using Tally.mem_keys_ofList.1 hm
  exact le_rfl

theorem DegreeLe.add {p q : Polynomial K} {n : Nat} (hp : p.DegreeLe n) (hq : q.DegreeLe n) :
    (p.add q).DegreeLe n := by
  intro m hm
  exact (Tally.mem_keys_addAll.1 hm).elim (hp m) (hq m)

theorem DegreeLe.mul {p q : Polynomial K} {k n : Nat} (hp : p.DegreeLe k) (hq : q.DegreeLe n) :
    (p.mul q).DegreeLe (k + n) := by
  intro m hm
  obtain ⟨⟨m, c⟩, hterm, rfl⟩ := List.mem_map.1 (Tally.mem_keys_ofList.1 hm)
  obtain ⟨⟨left, a⟩, hleft, hterm⟩ := List.mem_flatMap.1 hterm
  obtain ⟨⟨right, b⟩, hright, hterm⟩ := List.mem_map.1 hterm
  cases hterm
  rw [Monomial.degree_mul]
  exact Nat.add_le_add (hp left (List.mem_map_of_mem hleft)) (hq right (List.mem_map_of_mem hright))

theorem DegreeLe.pow {p : Polynomial K} {k : Nat} (hp : p.DegreeLe k) (n : Nat) :
    (p.pow n).DegreeLe (n * k) := by
  induction n with
  | zero => exact degreeLe_const 1 _
  | succ n ih =>
    rw [Nat.succ_mul]
    exact ih.mul hp

end Polynomial

namespace Expr

variable {K : Type}

section Expanding
variable [Scalar K]

theorem degreeLe_mulPolynomials {ts : List (Expr K)}
    (h : ∀ t ∈ ts, t.toPolynomial.DegreeLe t.degree) {acc : Polynomial K} {n : Nat}
    (hacc : acc.DegreeLe n) : (mulPolynomials acc ts).DegreeLe (n + degreeSum ts) := by
  induction ts generalizing acc n with
  | nil => rwa [mulPolynomials, degreeSum]
  | cons t ts ih =>
    rw [mulPolynomials, degreeSum, ← Nat.add_assoc]
    exact ih (fun u hu => h u (List.mem_cons_of_mem _ hu)) (hacc.mul (h t List.mem_cons_self))

theorem degreeLe_toPolynomial (e : Expr K) : e.toPolynomial.DegreeLe e.degree := by
  induction e using inductionOn with
  | const c => exact Polynomial.degreeLe_const c _
  | symbol s => exact Polynomial.degreeLe_symbol s
  | sum ts ih =>
    rw [toPolynomial]
    exact addPolynomials_of_closed (P := fun p => p.DegreeLe (sum ts).degree) .add
      (fun t ht => (ih t ht).mono (degree_le_of_mem_sum ht)) (Polynomial.degreeLe_empty _)
  | product ts ih =>
    have h := degreeLe_mulPolynomials ih (Polynomial.degreeLe_const 1 0)
    rwa [Nat.zero_add, ← degree, ← toPolynomial] at h
  | power base n ih =>
    rw [toPolynomial]
    exact (ih.pow n).mono (mul_degree_le (Nat.le_max_right 1 n))

end Expanding

/-! ## Exponents on the way -/

/-- The expressions whose polynomials, or whose powers, are formed on the way: the parts, the
products of some factors, and the lower powers. -/
inductive Passes (e : Expr K) : Expr K → Prop
  | self : Passes e e
  | term {t : Expr K} {ts : List (Expr K)} : Passes e (sum ts) → t ∈ ts → Passes e t
  | factor {t : Expr K} {ts : List (Expr K)} : Passes e (product ts) → t ∈ ts → Passes e t
  | subproduct {ts us : List (Expr K)} :
      Passes e (product ts) → us.Sublist ts → Passes e (product us)
  | base {b : Expr K} {n : Nat} : Passes e (power b n) → Passes e b
  | lower {b : Expr K} {k n : Nat} : Passes e (power b n) → k ≤ n → Passes e (power b k)

theorem Passes.degree_le {e p : Expr K} (h : Passes e p) : p.degree ≤ e.degree := by
  induction h with
  | self => exact le_rfl
  | term _ ht ih => exact (degree_le_of_mem_sum ht).trans ih
  | factor _ ht ih => exact (degree_le_of_mem_product ht).trans ih
  | subproduct _ hus ih =>
    rw [degree] at ih ⊢
    exact (degreeSum_le_of_sublist hus).trans ih
  | base _ ih =>
    have hbase := (mul_degree_le (Nat.le_max_left 1 _)).trans ih
    rwa [Nat.one_mul] at hbase
  | @lower b k n _ hk ih =>
    rw [degree]
    exact (mul_degree_le (max_le_max le_rfl hk)).trans ih

theorem le_degree_of_symbolPower? {e : Expr K} {power : Symbol × Nat}
    (h : e.symbolPower? = some power) : power.2 ≤ e.degree := by
  unfold symbolPower? at h
  split at h
  · cases h
    rw [degree]
  · rename_i s n
    cases h
    have hle : n * (symbol s : Expr K).degree ≤ (Expr.power (symbol s) n : Expr K).degree :=
      mul_degree_le (Nat.le_max_right 1 n)
    rwa [degree, Nat.mul_one] at hle
  · cases h

theorem sum_exponents_le {ts : List (Expr K)} {powers : List (Symbol × Nat)}
    (h : ts.mapM symbolPower? = some powers) : (powers.map Prod.snd).sum ≤ degreeSum ts := by
  induction ts generalizing powers with
  | nil =>
    cases h
    exact Nat.zero_le _
  | cons t ts ih =>
    rw [List.mapM_cons] at h
    obtain ⟨power, hpower, h⟩ := Option.bind_eq_some_iff.1 h
    obtain ⟨rest, hrest, h⟩ := Option.bind_eq_some_iff.1 h
    cases h
    rw [List.map_cons, List.sum_cons, degreeSum]
    exact Nat.add_le_add (le_degree_of_symbolPower? hpower) (ih hrest)

variable [Scalar K]

/-- The exponents that multiplying out and filing the terms come to are words of 32 bits. -/
structure ExponentsFit (e : Expr K) : Prop where
  expanded : ∀ p, Passes e p → ∀ m ∈ p.toPolynomial.keys, ∀ power ∈ m.entries,
    power.2 < UInt32.size
  filed : ∀ ts, Passes e (product ts) → ∀ powers, ts.mapM symbolPower? = some powers →
    ∀ power ∈ Tally.entries (Tally.ofList powers), power.2 < UInt32.size

theorem exponentsFit_of_degree {e : Expr K} (h : e.degree < UInt32.size) : e.ExponentsFit where
  expanded p hp m hm power hpower :=
    calc power.2 ≤ m.degree := Monomial.exponent_le_degree hpower
      _ ≤ p.degree := p.degreeLe_toPolynomial m hm
      _ ≤ e.degree := hp.degree_le
      _ < UInt32.size := h
  filed ts hts powers hpowers power hpower :=
    calc power.2 ≤ Monomial.degree (Tally.ofList powers) := Monomial.exponent_le_degree hpower
      _ = (powers.map Prod.snd).sum := Monomial.degree_ofList powers
      _ ≤ degreeSum ts := sum_exponents_le hpowers
      _ = (product ts).degree := (degree.eq_def (product ts)).symm
      _ ≤ e.degree := hts.degree_le
      _ < UInt32.size := h

end Expr

end Semidefinite
