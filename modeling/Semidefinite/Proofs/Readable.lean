import Semidefinite.Proofs.Expr.Occurrences
import Semidefinite.Proofs.LinearForm

/-!
# Which expressions are read

Whether `LinearForm.ofExpr` reads an expression depends on the nonce only as far
as it is fresh (`exists_ofExpr_iff`): an expression is read if what its summands
collect under the keys is affine, or its polynomial is (`Readable`). In particular a
tree that denotes zero is always read.
-/

namespace Semidefinite

open Std MvPolynomial

namespace Expr

/-! ## What the summands collect -/

/-- What a coefficient under the key `l` adds to that under `k`. -/
def share (k l : TermKey) (c : ℚ) : ℚ :=
  if l = k then c else 0

theorem share_zero (k l : TermKey) : share k l 0 = 0 := ite_self _

theorem share_add (k l : TermKey) (c d : ℚ) : share k l (c + d) = share k l c + share k l d := by
  unfold share
  split
  · rfl
  · exact (add_zero 0).symm

theorem additive_share (k : TermKey) : Tally.Additive (share k) where
  start l c := by rw [zero_add]
  add l c d := share_add k l c d

/-- What a term adds to the coefficient under `k`. -/
def termShare (k : TermKey) (t : Expr ℚ) : ℚ :=
  share k t.key t.coefficient

theorem additiveOnConstants_termShare (k : TermKey) : AdditiveOnConstants (termShare k) where
  zero := share_zero k .one
  add c d := share_add k .one c d

/-- The merged coefficient of a key among the summands of a tree. -/
def collected (e : Expr ℚ) (k : TermKey) : ℚ :=
  (e.summands.map (termShare k)).sum

theorem total_terms (e : Expr ℚ) (k : TermKey) :
    e.terms.total k = (e.topTerms.map (termShare k)).sum := by
  have hsum : Tally.sum (share k) e.terms = e.terms.total k := by
    rw [Tally.sum_eq_total (ascending_terms e) k (share_zero k k) fun p _ hp => if_neg hp]
    exact if_pos rfl
  rw [← hsum, terms_eq, Tally.sum_dropZeros (share_zero k), mergedTerms,
    Tally.sum_ofList (additive_share k), List.map_map]
  refine congrArg List.sum (List.map_congr_left fun t _ => ?_)
  rw [Function.comp_apply, splitTerm_eq, termShare, key_eq]

theorem mem_keys_terms_iff {e : Expr ℚ} {k : TermKey} : k ∈ e.terms.keys ↔ e.terms.total k ≠ 0 := by
  refine ⟨fun hk => ?_, fun htotal => ?_⟩
  · obtain ⟨p, hp, rfl⟩ := List.mem_map.1 hk
    rw [Tally.total_of_mem (ascending_terms e) hp]
    exact (Tally.mem_dropZeros.1 hp).2
  · by_contra hk
    exact htotal (Tally.total_of_not_mem hk)

/-- A sum over the terms of a normalised sum is one over the summands. -/
theorem AdditiveOnConstants.sum_map_topTerms {M : Type*} [AddCommMonoid M] {g : Expr ℚ → M}
    (hg : AdditiveOnConstants g) (ts : List (Expr ℚ)) :
    ((sumOf ts).topTerms.map g).sum = ((summandsList ts).map g).sum := by
  rw [← hg.sum_map_sumItems]
  rcases sumOf_cases ts with ⟨hi, ho⟩ | ⟨only, hi, ho⟩ | ⟨-, ho⟩
  · rw [hi, ho]
    exact (add_zero _).trans hg.zero
  · have honly : only.topTerms = [only] := by
      rcases mem_sumItems (show only ∈ sumItems ts by simp [hi]) with ⟨c, rfl⟩ | ⟨hmem, -⟩
      · rfl
      · exact topTerms_of_mem_summandsList hmem
    rw [hi, ho, honly]
  · rw [ho]
    rfl

/-- The nonce adds one to its own key, and nothing to the others. -/
theorem total_shifted (nonce : Symbol) (e : Expr ℚ) (k : TermKey) :
    (sumOf [.symbol nonce, e]).terms.total k =
      (if .symbol nonce = k then 1 else 0) + e.collected k := by
  have hsummands : summandsList [.symbol nonce, e] = .symbol nonce :: e.summands := by
    simp [summandsList, summands]
  rw [total_terms, (additiveOnConstants_termShare k).sum_map_topTerms, hsummands, List.map_cons,
    List.sum_cons]
  rfl

/-! ## Keys that are symbols -/

section Keys
variable {K : Type}

theorem exists_of_mapM_symbolPower? {items : List (Expr K)} {powers : List (Symbol × ℕ)}
    (h : items.mapM symbolPower? = some powers) {s : Symbol} (hs : s ∈ powers.map Prod.fst) :
    ∃ t ∈ items, s ∈ t.occurrences := by
  induction items generalizing powers with
  | nil =>
    cases h
    cases hs
  | cons t rest ih =>
    rw [List.mapM_cons] at h
    obtain ⟨p, hp, h⟩ := Option.bind_eq_some_iff.1 h
    obtain ⟨tail, htail, h⟩ := Option.bind_eq_some_iff.1 h
    cases h
    rw [List.map_cons, List.mem_cons] at hs
    rcases hs with rfl | hs
    · refine ⟨t, List.mem_cons_self, ?_⟩
      unfold symbolPower? at hp
      split at hp <;> cases hp <;> simp [occurrences]
    · obtain ⟨u, hu, hus⟩ := ih htail hs
      exact ⟨u, List.mem_cons_of_mem _ hu, hus⟩

theorem mem_occurrences_of_mem_residue {t u : Expr K} (hu : u ∈ t.residue) {s : Symbol}
    (hs : s ∈ u.occurrences) : s ∈ t.occurrences := by
  unfold residue at hu
  split at hu
  · cases hu
  · rw [occurrences]
    exact mem_occurrencesList.2 ⟨u, (mem_withoutConstants.1 hu).1, hs⟩
  · rwa [List.mem_singleton.1 hu] at hs

variable [Scalar K]

/-- A term is filed under a symbol only if the symbol occurs in it. -/
theorem mem_occurrences_of_key_eq_symbol {t : Expr K} {s : Symbol} (h : t.key = .symbol s) :
    s ∈ t.occurrences := by
  rw [key_eq] at h
  rcases productKey_cases t.residue with ⟨powers, hpowers, hkey⟩ | ⟨-, hkey⟩
  · rw [hkey] at h
    unfold TermKey.ofPowers at h
    split at h
    · cases h
    · rename_i hentries
      cases h
      have hmem : (s, 1) ∈ (Tally.ofList powers).dropZeros.entries := by
        rw [hentries]
        exact List.mem_singleton_self _
      have hkeys := Tally.mem_keys_ofList.1
        (List.mem_map_of_mem (f := Prod.fst) (Tally.mem_dropZeros.1 hmem).1)
      obtain ⟨u, hu, hus⟩ := exists_of_mapM_symbolPower? hpowers hkeys
      exact mem_occurrences_of_mem_residue hu hus
    · cases h
  · rw [hkey] at h
    cases h

end Keys

theorem collected_symbol_of_not_mem {e : Expr ℚ} {s : Symbol} (h : s ∉ e.occurrences) :
    e.collected (.symbol s) = 0 := by
  refine List.sum_eq_zero fun c hc => ?_
  obtain ⟨t, ht, rfl⟩ := List.mem_map.1 hc
  refine if_neg fun hkey => h ?_
  exact mem_occurrences_of_mem_summands t ht (mem_occurrences_of_key_eq_symbol hkey)

/-! ## Reading an expression -/

/-- What the summands collect is filed under the constant key and the variables. -/
def AffineAsWritten (vars : List Symbol) (e : Expr ℚ) : Prop :=
  ∀ k, e.collected k ≠ 0 → k = .one ∨ ∃ s ∈ vars, k = .symbol s

/-- The expression is affine as it is written, or once it is multiplied out. -/
def Readable (vars : List Symbol) (e : Expr ℚ) : Prop :=
  AffineAsWritten vars e ∨ AffineIn vars e.poly

theorem readable_of_poly_eq_zero {vars : List Symbol} {e : Expr ℚ} (h : e.poly = 0) :
    e.Readable vars := by
  refine .inr fun d hd => ?_
  rw [h, support_zero] at hd
  cases hd

end Expr

namespace LinearForm

open Semidefinite.Expr

variable {nonce : Symbol} {e : Expr ℚ} {vars : List Symbol}

theorem isAffine_shifted_iff (he : nonce ∉ e.occurrences) :
    isAffine (vars ++ [nonce]) (sumOf [.symbol nonce, e]).terms = true ↔
      AffineAsWritten vars e := by
  have hown := collected_symbol_of_not_mem he
  simp only [isAffine_iff, mem_keys_terms_iff, total_shifted]
  refine ⟨fun h k hk => ?_, fun h k hk => ?_⟩
  · -- the key is not that of the nonce, which no summand has
    have hne : .symbol nonce ≠ k := by
      rintro rfl
      exact hk hown
    rcases h k (by rwa [if_neg hne, zero_add]) with hone | ⟨s, hs, rfl⟩
    · exact .inl hone
    · rcases List.mem_append.1 hs with hs | hs
      · exact .inr ⟨s, hs, rfl⟩
      · exact absurd (congrArg TermKey.symbol (List.mem_singleton.1 hs).symm) hne
  · by_cases hk' : .symbol nonce = k
    · exact .inr ⟨nonce, by simp, hk'.symm⟩
    · rw [if_neg hk', zero_add] at hk
      rcases h k hk with hone | ⟨s, hs, rfl⟩
      · exact .inl hone
      · exact .inr ⟨s, List.mem_append_left _ hs, rfl⟩

theorem isAffine_expand_shifted_iff (he : nonce ∉ e.occurrences) :
    isAffine (vars ++ [nonce]) (sumOf [.symbol nonce, e]).expand.terms = true ↔
      AffineIn vars e.poly := by
  rw [isAffine_iff_affineIn (keysFaithful_expand _) (keysMonomial_expand _), poly_expand,
    poly_shifted, affineIn_shifted_iff he]

/-- An expression is read exactly if it is readable, whatever fresh nonce is added. -/
theorem exists_ofExpr_iff (he : nonce ∉ e.occurrences) :
    (∃ form, ofExpr nonce e vars = .ok form) ↔ e.Readable vars := by
  rw [Readable, ← isAffine_shifted_iff he, ← isAffine_expand_shifted_iff he]
  unfold ofExpr affineTerms?
  by_cases hwritten : isAffine (vars ++ [nonce]) (sumOf [.symbol nonce, e]).terms = true
  · simp [hwritten]
  · by_cases hexpanded : isAffine (vars ++ [nonce]) (sumOf [.symbol nonce, e]).expand.terms = true
    · simp [hwritten, hexpanded]
    · simp [hwritten, hexpanded]

end LinearForm

end Semidefinite
