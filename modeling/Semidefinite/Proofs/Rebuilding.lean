import Semidefinite.Proofs.Extraction

/-!
# Extraction undoes writing out

A pencil is written out as the sums `C₀ + Σ xₖ · Cₖ` of its cells. A term of such a
sum vanishes with its coefficient, and a coefficient of one is not written, but each
that is left is still filed under its variable with the coefficient that it was made
of (`Expr.splitTerm_sumItems`). Distinct variables are distinct keys, so the form
that is read off has the numbers of the cell (`LinearForm.exists_plainForm_linear`).
The laws of zero and one are enough for this, so infinities come back, and so does
what is no number.
-/

namespace Semidefinite

open Storage

variable {K : Type} [Scalar K]

/-! ## Sums of multiples -/

namespace Expr

/-- The terms `cₖ · xₖ`, as the normalising constructors build them. -/
def multiples (terms : List (K × Symbol)) : List (Expr K) :=
  terms.map fun (c, x) => const c * symbol x

/-- The sum `c₀ + Σ cₖ · xₖ`. -/
def linear (c₀ : K) (terms : List (K × Symbol)) : Expr K :=
  sumOf (const c₀ :: multiples terms)

/-- The contributions of the constant and the multiples to the terms of their sum. -/
def contributions (c₀ : K) (terms : List (K × Symbol)) : List (TermKey × K) :=
  (.one, c₀) :: terms.map fun (c, x) => (.symbol x, c)

section Unit
variable [LawfulUnit K]

/-- A multiple of a symbol vanishes with its coefficient, and is a term of its own otherwise. -/
theorem const_mul_symbol (c : K) (x : Symbol) :
    ((c == 0) = true ∧ (const c * symbol x : Expr K) = zero) ∨
      ((c == 0) = false ∧ ∃ t, (const c * symbol x : Expr K) = t ∧ summands t = [t] ∧
        t.constant? = none ∧ splitTerm t = (.symbol x, c)) := by
  have hcoefficient : productCoefficient [const c, symbol x] = c := LawfulUnit.one_mul c
  have hothers : otherFactors [const c, symbol x] = [symbol x] := rfl
  show (_ ∧ productOf [const c, symbol x] = zero) ∨ _ ∧ ∃ t, productOf [const c, symbol x] = t ∧ _
  rw [productOf_eq, productItems_eq, hcoefficient, hothers]
  cases hzero : c == 0 with
  | true => exact .inl ⟨rfl, rfl⟩
  | false =>
    refine .inr ⟨rfl, _, rfl, ?_⟩
    cases hone : c == 1 with
    | true =>
      obtain rfl := LawfulUnit.eq_one hone
      simp [bne, hone, summands, constant?, splitTerm]
    | false =>
      have hsplit : splitTerm (product [const c, symbol x]) = (.symbol x, 1 * c) := rfl
      rw [LawfulUnit.one_mul] at hsplit
      simp [bne, hone, summands, constant?, hsplit]

/-- Zeros that are added change nothing but another zero. -/
theorem foldl_add_zeros {zeros : List K} (h : ∀ z ∈ zeros, (z == 0) = true) (c : K) :
    ((c == 0) = true → (zeros.foldl (· + ·) c == 0) = true) ∧
      ((c == 0) = false → zeros.foldl (· + ·) c = c) := by
  induction zeros generalizing c with
  | nil => exact ⟨id, fun _ => rfl⟩
  | cons z zeros ih =>
    obtain ⟨hz, hzeros⟩ := List.forall_mem_cons.1 h
    rw [List.foldl_cons]
    refine ⟨fun hc => (ih hzeros _).1 (LawfulZeros.add_beq_zero hc hz), fun hc => ?_⟩
    rw [LawfulUnit.add_zero hc hz]
    exact (ih hzeros c).2 hc

/-- The multiples have no constants but zeros, and their other summands are terms of their own. -/
theorem parts_multiples (terms : List (K × Symbol)) :
    (∀ z ∈ (summandsList (multiples terms)).filterMap constant?, (z == 0) = true) ∧
      (otherSummands (multiples terms)).map splitTerm =
        (terms.map fun (c, x) => (TermKey.symbol x, c)).filter fun p => p.2 != 0 := by
  induction terms with
  | nil => simp [multiples, summandsList, otherSummands, withoutConstants]
  | cons p terms ih =>
    obtain ⟨c, x⟩ := p
    obtain ⟨hzeros, hterms⟩ := ih
    have hcons : summandsList (multiples ((c, x) :: terms)) =
        summands (const c * symbol x) ++ summandsList (multiples terms) := rfl
    rw [otherSummands, hcons, List.map_cons]
    rcases const_mul_symbol c x with ⟨hc, hproduct⟩ | ⟨hc, t, hproduct, hself, hnone, hsplit⟩
    · rw [hproduct]
      refine ⟨List.forall_mem_cons.2 ⟨LawfulZero.zero_beq, hzeros⟩, ?_⟩
      rw [List.filter_cons_of_neg (by simp [bne, hc])]
      exact hterms
    · rw [hproduct, hself, List.singleton_append]
      refine ⟨?_, ?_⟩
      · rw [List.filterMap_cons_none hnone]
        exact hzeros
      · rw [withoutConstants_cons hnone, List.map_cons, hsplit,
          List.filter_cons_of_pos (by simp [bne, hc])]
        exact congrArg _ hterms

/-- The items of the sum are the contributions that are not zero. -/
theorem splitTerm_sumItems (c₀ : K) (terms : List (K × Symbol)) :
    (sumItems (const c₀ :: multiples terms)).map splitTerm =
      (contributions c₀ terms).filter fun p => p.2 != 0 := by
  obtain ⟨hzeros, hterms⟩ := parts_multiples terms
  obtain ⟨hzero, hother⟩ := foldl_add_zeros hzeros (0 + c₀)
  have hconstant : sumConstant (const c₀ :: multiples terms) =
      ((summandsList (multiples terms)).filterMap constant?).foldl (· + ·) (0 + c₀) := rfl
  rw [sumItems_eq, hconstant]
  cases hc : c₀ == 0 with
  | true =>
    have hstart := hzero (LawfulZeros.add_beq_zero LawfulZero.zero_beq hc)
    rw [if_neg (by simp [bne, hstart]), contributions, List.filter_cons_of_neg (by simp [bne, hc])]
    exact hterms
  | false =>
    rw [LawfulStart.zero_add hc] at hother ⊢
    rw [hother hc, if_pos (by simp [bne, hc]), contributions,
      List.filter_cons_of_pos (by simp [bne, hc]), List.map_cons]
    exact congrArg _ hterms

end Unit

theorem termsOfSum_sumOf [LawfulZeros K] (ts : List (Expr K)) :
    termsOfSum [sumOf ts] = termsOfSum ts := by
  rw [termsOfSum, sumItems_sumOf, termsOfSum]

end Expr

/-! ## Reading the sums -/

/-- Entries of distinct keys are totals, up to the signs of zeros. -/
theorem Tally.alike_total_ofList {κ : Type} [Ord κ] [Std.TransOrd κ] [Std.LawfulEqOrd κ] [BEq κ]
    [LawfulBEq κ] [LawfulStart K] {entries : List (κ × K)} (hnodup : (entries.map Prod.fst).Nodup)
    {k : κ} {v : K} (h : (k, v) ∈ entries) :
    Alike ((ofList (entries.filter fun p => p.2 != 0)).dropZeros.total k) v := by
  have hdistinct : ((entries.filter fun p => p.2 != 0).map Prod.fst).Nodup :=
    hnodup.sublist (List.filter_sublist.map _)
  cases hv : v == 0 with
  | true =>
    -- the only entry of the key is dropped
    have hnew : k ∉ (ofList (entries.filter fun p => p.2 != 0)).dropZeros.keys := by
      intro hmem
      have hk := (List.filter_sublist.map _).subset hmem
      obtain ⟨⟨l, u⟩, hu, rfl⟩ := List.mem_map.1 (mem_keys_ofList.1 hk)
      obtain ⟨hmem, hvalue⟩ := List.mem_filter.1 hu
      cases List.inj_on_of_nodup_map hnodup hmem h rfl
      simp [bne, hv] at hvalue
    rw [total_of_not_mem hnew]
    exact .inr ⟨LawfulZero.zero_beq, hv⟩
  | false =>
    have hsum : (0 : K) + v = v := LawfulStart.zero_add hv
    have hentry : (k, v) ∈ (ofList (entries.filter fun p => p.2 != 0)).entries :=
      (mem_ofList_of_nodup hdistinct).2
        ⟨(k, v), List.mem_filter.2 ⟨h, by simp [bne, hv]⟩, by rw [hsum]⟩
    have hkept : (k, v) ∈ (ofList (entries.filter fun p => p.2 != 0)).dropZeros.entries :=
      List.mem_filter.2 ⟨hentry, by simp [bne, hv]⟩
    exact .inl (total_of_mem (ascending_ofList _).dropZeros hkept)

namespace LinearForm

open Semidefinite.Expr

/-- The numbers that a form is written with are read off it. -/
structure Recovers (form : LinearForm K) (c₀ : K) (cs : List K) : Prop where
  constant : Alike form.constant c₀
  coefficients : List.Forall₂ Alike form.coefficients cs

section Linear
variable {vars : List Symbol} {cs : List K} (c₀ : K)

omit [Scalar K] in
theorem map_fst_contributions (hlength : cs.length = vars.length) :
    (contributions c₀ (cs.zip vars)).map Prod.fst = .one :: vars.map .symbol := by
  have hsecond : (cs.zip vars).map Prod.snd = vars := List.map_snd_zip hlength.ge
  rw [contributions, List.map_cons, List.map_map]
  conv_rhs => rw [← hsecond, List.map_map]
  rfl

omit [Scalar K] in
theorem nodup_contributions (hvars : vars.Nodup) (hlength : cs.length = vars.length) :
    ((contributions c₀ (cs.zip vars)).map Prod.fst).Nodup := by
  rw [map_fst_contributions c₀ hlength, List.nodup_cons]
  refine ⟨fun hmem => ?_, hvars.map fun _ _ => TermKey.symbol.inj⟩
  obtain ⟨x, -, hx⟩ := List.mem_map.1 hmem
  cases hx

variable [LawfulUnit K]

theorem termsOfSum_linear (terms : List (K × Symbol)) : termsOfSum [linear c₀ terms] =
    (Tally.ofList ((contributions c₀ terms).filter fun p => p.2 != 0)).dropZeros := by
  rw [linear, termsOfSum_sumOf, termsOfSum, splitTerm_sumItems]

theorem isAffine_linear (hlength : cs.length = vars.length) :
    isAffine vars (termsOfSum [linear c₀ (cs.zip vars)]) = true := by
  rw [termsOfSum_linear, isAffine_iff]
  intro k hk
  have hk := Tally.mem_keys_ofList.1 ((List.filter_sublist.map _).subset hk)
  have hk := (List.filter_sublist.map _).subset hk
  rw [map_fst_contributions c₀ hlength] at hk
  rcases List.mem_cons.1 hk with rfl | hk
  · exact .inl rfl
  · obtain ⟨x, hx, rfl⟩ := List.mem_map.1 hk
    exact .inr ⟨x, hx, rfl⟩

/-- The sum of a number and multiples of distinct variables is read as it stands. -/
theorem exists_plainForm_linear (hvars : vars.Nodup) (hlength : cs.length = vars.length) :
    ∃ form, plainForm (linear c₀ (cs.zip vars)) vars = .ok form ∧ form.Recovers c₀ cs := by
  have hnodup := nodup_contributions c₀ hvars hlength
  refine ⟨ofTerms vars (termsOfSum [linear c₀ (cs.zip vars)]), ?_, ?_, ?_⟩
  · rw [plainForm, if_pos (isAffine_linear c₀ hlength)]
  · rw [termsOfSum_linear]
    exact Tally.alike_total_ofList hnodup List.mem_cons_self
  · rw [termsOfSum_linear]
    refine List.forall₂_iff_get.2 ⟨(List.length_map _).trans hlength.symm, fun k hk hk' => ?_⟩
    have hkvars : k < vars.length := hlength ▸ hk'
    have hmem : (TermKey.symbol vars[k], cs[k]) ∈ contributions c₀ (cs.zip vars) := by
      refine List.mem_cons_of_mem _ (List.mem_map.2 ⟨(cs[k], vars[k]), ?_, rfl⟩)
      exact List.mem_iff_getElem.2 ⟨k, by simpa using ⟨hk', hkvars⟩, List.getElem_zip⟩
    simpa [ofTerms] using Tally.alike_total_ofList hnodup hmem

end Linear

end LinearForm

/-! ## Cells -/

section Cells
variable {S : Type → Type} [Storage S]

theorem Backend.exists_get (b : Backend) {m : b.Store K} {i j : Nat} (hi : i < (shape m).1)
    (hj : j < (shape m).2) : ∃ v, get m i j = .ok v := by
  cases b with
  | dense => exact ⟨_, Grid.get_eq_of_some (Grid.entry?_eq_some m ⟨hi, hj⟩)⟩
  | rowLists =>
    have hinside : RowLists.contains m i j = true :=
      (Bool.and_eq_true ..).mpr ⟨decide_eq_true hi, decide_eq_true hj⟩
    exact ⟨_, if_pos hinside⟩
  | triplets => exact ⟨_, rfl⟩

namespace Pencil

variable {p : Pencil S K} {vars : List Symbol}

theorem entry_eq_linear (p : Pencil S K) (vars : List Symbol) (i j : Nat) :
    p.entry vars i j =
      Expr.linear (value p.constant i j) ((p.coefficients.map (value · i j)).zip vars) := by
  rw [entry, Expr.linear, Expr.multiples, List.zip_map_left, List.map_map]
  rfl

theorem mem_vars_of_mem_entry {i j : Nat} {s : Symbol} (h : s ∈ (p.entry vars i j).occurrences) :
    s ∈ vars := by
  obtain ⟨t, ht, hs⟩ := Expr.mem_occurrences_sumOf h
  rcases List.mem_cons.1 ht with rfl | ht
  · simp [Expr.occurrences] at hs
  · obtain ⟨⟨coefficient, x⟩, hmem, rfl⟩ := List.mem_map.1 ht
    obtain ⟨u, hu, hs⟩ := Expr.mem_occurrences_productOf hs
    rcases List.mem_pair.1 hu with rfl | rfl
    · simp [Expr.occurrences] at hs
    · rw [Expr.occurrences, List.mem_singleton] at hs
      exact hs ▸ (List.of_mem_zip hmem).2

theorem entry?_toSymbolic {i j : Nat} (hi : i < p.shape.1) (hj : j < p.shape.2) :
    Grid.entry? (p.toSymbolic vars) i j = some (p.entry vars i j) :=
  Grid.entry?_tabulate _ ⟨hi, hj⟩

theorem eq_entry_of_eq_some {i j : Nat} {e : Expr K}
    (h : Grid.entry? (p.toSymbolic vars) i j = some e) : e = p.entry vars i j := by
  obtain ⟨hi, hj⟩ := Grid.lt_of_entry?_eq_some h
  rw [entry?_toSymbolic hi hj] at h
  exact (Option.some.inj h).symm

theorem isFresh_toSymbolic {supply : NonceSupply}
    (h : ∀ k < (p.toSymbolic vars).drawCount, (supply.advance k).peek ∉ vars) :
    (p.toSymbolic vars).IsFresh vars supply := by
  refine fun k hk => ⟨h k hk, fun i j e he hmem => h k hk ?_⟩
  rw [eq_entry_of_eq_some he] at hmem
  exact mem_vars_of_mem_entry hmem

end Pencil

end Cells

/-! ## There and back -/

section Restores
variable {S T : Type → Type} [Storage S] [Storage T]

/-- The matrix has the shape of the original, and each cell reads the same, up to the sign of
zero. -/
structure Storage.Restores (m : T K) (original : S K) : Prop where
  shape : Storage.shape m = Storage.shape original
  cells : ∀ i j, i < (Storage.shape original).1 → j < (Storage.shape original).2 →
    ∃ u v, get m i j = .ok u ∧ get original i j = .ok v ∧ Alike u v

/-- The pencil restores the constant and each coefficient matrix of the original. -/
structure Pencil.Restores (q : Pencil T K) (original : Pencil S K) : Prop where
  constant : Storage.Restores q.constant original.constant
  coefficients : List.Forall₂ Storage.Restores q.coefficients original.coefficients

end Restores

namespace Pencil

section Restore
variable {b : Backend} {p : Pencil b.Store K} {T : Type → Type} [Storage T]

/-- A pencil of the same shape that shows the numbers of each cell restores the original. -/
theorem restores_of_shows {q : Pencil T K} (hshape : q.shape = p.shape)
    (hshapes : ∀ m ∈ p.coefficients, Storage.shape m = p.shape)
    (hshapes' : ∀ m ∈ q.coefficients, Storage.shape m = p.shape)
    (hlength : q.coefficients.length = p.coefficients.length)
    (h : ∀ i j, i < p.shape.1 → j < p.shape.2 → ∃ form : LinearForm K, q.Shows ⟨i, j⟩ form ∧
      form.Recovers (value p.constant i j) (p.coefficients.map (value · i j))) :
    q.Restores p := by
  refine ⟨⟨hshape, fun i j hi hj => ?_⟩, List.forall₂_iff_get.2 ⟨hlength, fun k hk hk' => ?_⟩⟩
  · obtain ⟨form, hshows, hform⟩ := h i j hi hj
    obtain ⟨u, hu, halike⟩ := hshows.constant
    obtain ⟨v, hv⟩ := b.exists_get hi hj
    refine ⟨u, v, hu, hv, halike.trans ?_⟩
    rw [← value_of_get hv]
    exact hform.constant
  · have hm := hshapes _ (List.get_mem _ ⟨k, hk'⟩)
    refine ⟨(hshapes' _ (List.get_mem _ ⟨k, hk⟩)).trans hm.symm, fun i j hi hj => ?_⟩
    obtain ⟨v, hv⟩ := b.exists_get hi hj
    rw [hm] at hi hj
    obtain ⟨form, hshows, hform⟩ := h i j hi hj
    have hkform : k < form.coefficients.length := hshows.coefficients.length_eq ▸ hk
    obtain ⟨u, hu, halike⟩ := hshows.coefficients.get hk hkform
    have hvalue := hform.coefficients.get hkform (by rwa [List.length_map])
    simp only [List.get_eq_getElem, List.getElem_map] at hvalue
    refine ⟨u, v, hu, hv, halike.trans ?_⟩
    rw [← value_of_get hv]
    exact hvalue

variable [LawfulUnit K] [FaithfulStorage T K] {vars : List Symbol} {supply : NonceSupply}

theorem exists_restores (hvars : vars.Nodup) (hlength : p.coefficients.length = vars.length)
    (hshapes : ∀ m ∈ p.coefficients, Storage.shape m = p.shape)
    (hfresh : (p.toSymbolic vars).IsFresh vars supply) :
    ∃ q : Pencil T K, ((extract T (p.toSymbolic vars) vars).run supply).1 = .ok q ∧
      q.Restores p := by
  have hforms : ∀ i j, ∃ form : LinearForm K,
      LinearForm.plainForm (p.entry vars i j) vars = .ok form ∧
        form.Recovers (value p.constant i j) (p.coefficients.map (value · i j)) := fun i j => by
    rw [entry_eq_linear]
    exact LinearForm.exists_plainForm_linear _ hvars (by rwa [List.length_map])
  obtain ⟨q, hq⟩ := (exists_extract_iff_forms (S := T) hfresh).2 fun i j e he => by
    obtain ⟨form, hform, -⟩ := hforms i j
    exact ⟨form, eq_entry_of_eq_some he ▸ hform⟩
  obtain ⟨hcount, hshape, hown⟩ := shapes_of_extract hq
  refine ⟨q, hq, restores_of_shows hshape hshapes hown (hcount.trans hlength.symm)
    fun i j hi hj => ?_⟩
  obtain ⟨form, hread, hrecovers⟩ := hforms i j
  obtain ⟨form', hread', hshows⟩ :=
    shows_of_extract hfresh hq (c := ⟨i, j⟩) (entry?_toSymbolic hi hj)
  rw [hread] at hread'
  cases hread'
  exact ⟨form, hshows, hrecovers⟩

end Restore

end Pencil

end Semidefinite
