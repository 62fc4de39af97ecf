import Semidefinite.LinearForm
import Semidefinite.Proofs.Expr.Merging
import Semidefinite.Proofs.Expr.Reading

/-!
# When like terms are alike

Terms that are filed under one text are merged, so merging is sound as far as
texts tell terms apart (`mergesAlike_iff`). They do if no product is empty and
the symbols are `Legible`: each written as a word of its own that is no number.
Otherwise two terms of different value may share a text, and the merged
coefficient is wrong.
-/

namespace Semidefinite

open Reading

/-- The texts of the symbols are words, which are told apart from numbers and from each other. -/
structure Legible (S : Set Symbol) : Prop where
  word : ∀ s ∈ S, IsWord s.text.toList
  notNumber : ∀ s ∈ S, ∀ q : ℚ, s.text ≠ ratText q
  injective : Set.InjOn Symbol.text S

theorem Legible.exists_value {S : Set Symbol} (h : Legible S) {R : Type*} [CommRing R] [Algebra ℚ R]
    (x : Symbol → R) :
    ∃ value : List Char → R, (∀ q : ℚ, value (ratText q).toList = algebraMap ℚ R q) ∧
      ∀ s ∈ S, value s.text.toList = x s := by
  let numbers : List Char → R :=
    Function.extend (fun q : ℚ => (ratText q).toList) (algebraMap ℚ R) 0
  let spelling : S → List Char := fun s => s.1.text.toList
  have hspelling : Function.Injective spelling := fun s t hst =>
    Subtype.ext (h.injective s.2 t.2 (String.toList_inj.1 hst))
  have hnumber : Function.Injective fun q : ℚ => (ratText q).toList := fun q r hqr =>
    ratText_injective (String.toList_inj.1 hqr)
  refine ⟨Function.extend spelling (fun s => x s.1) numbers, fun q => ?_, fun s hs => ?_⟩
  · rw [Function.extend_apply']
    · exact hnumber.extend_apply _ _ q
    rintro ⟨s, hs⟩
    exact h.notNumber s.1 s.2 q (String.toList_inj.1 hs)
  · exact hspelling.extend_apply _ _ ⟨s, hs⟩

namespace Expr

section Spelt
variable {S : Set Symbol}

/-- Legible trees with one text have one value. -/
theorem eval_eq_of_text_eq (hS : Legible S) {a b : Expr ℚ} (ha : Spelt S a) (hb : Spelt S b)
    (htext : a.text = b.text) {R : Type*} [CommRing R] [Algebra ℚ R] (x : Symbol → R) :
    eval x a = eval x b := by
  obtain ⟨value, hnumber, hsymbol⟩ := hS.exists_value x
  rw [← (readsTerm_text hnumber hS.word hsymbol ha).1.result_eq,
    ← (readsTerm_text hnumber hS.word hsymbol hb).1.result_eq, htext]

/-! ## Keys of legible terms -/

theorem Spelt.of_mem_factors {e : Expr ℚ} (h : Spelt S e) : ∀ f ∈ factors e, Spelt S f := by
  induction h with
  | product _ _ ih =>
    intro f hf
    unfold factors at hf
    obtain ⟨u, hu, hf⟩ := mem_factorsList.1 hf
    exact ih u hu f hf
  | const c => simpa [factors] using Spelt.const c
  | symbol hs => simpa [factors] using Spelt.symbol hs
  | sum hts => simpa [factors] using Spelt.sum hts
  | power n hbase => simpa [factors] using Spelt.power n hbase

theorem Spelt.productOf {ts : List (Expr ℚ)} (h : ∀ t ∈ ts, Spelt S t) :
    Spelt S (productOf ts) := by
  have hitems : ∀ f ∈ productItems ts, Spelt S f := by
    intro f hf
    rcases mem_productItems hf with ⟨c, rfl⟩ | ⟨hf, -⟩
    · exact .const c
    · obtain ⟨t, ht, hf⟩ := mem_factorsList.1 hf
      exact (h t ht).of_mem_factors f hf
  rcases productOf_cases ts with ⟨-, ho⟩ | ⟨-, ⟨-, ho⟩ | ⟨only, hi, ho⟩ | ⟨hlen, ho⟩⟩
  · rw [ho]
    exact .const 0
  · rw [ho]
    exact .const 1
  · rw [ho]
    exact hitems only (by simp [hi])
  · rw [ho]
    refine .product (fun hnil => ?_) hitems
    simp [hnil] at hlen

theorem Spelt.of_mem_residue {t : Expr ℚ} (h : Spelt S t) : ∀ f ∈ t.residue, Spelt S f := by
  cases h with
  | const c => simp [residue]
  | product _ hts =>
    intro f hf
    exact hts f (List.mem_of_mem_filter hf)
  | symbol hs => simpa [residue] using Spelt.symbol hs
  | sum hts => simpa [residue] using Spelt.sum hts
  | power n hbase => simpa [residue] using Spelt.power n hbase

theorem Spelt.of_mem_topTerms {e : Expr ℚ} (h : Spelt S e) : ∀ t ∈ e.topTerms, Spelt S t := by
  cases h with
  | sum hts => exact hts
  | const c => simpa [topTerms] using Spelt.const c
  | symbol hs => simpa [topTerms] using Spelt.symbol hs
  | product hne hts => simpa [topTerms] using Spelt.product hne hts
  | power n hbase => simpa [topTerms] using Spelt.power n hbase

end Spelt

theorem eq_text_of_key_eq_unexpanded {t : Expr ℚ} {text : String} (h : t.key = .unexpanded text) :
    text = (productOf t.residue).text := by
  rw [key_eq] at h
  rcases productKey_cases t.residue with ⟨powers, -, hkey⟩ | ⟨-, hkey⟩
  · rw [hkey, TermKey.ofPowers] at h
    split at h <;> cases h
  · rw [hkey] at h
    cases h
    rfl

theorem keysFaithful_of_spelt {S : Set Symbol} (hS : Legible S) {ts : List (Expr ℚ)}
    (h : ∀ t ∈ ts, Spelt S t) : KeysFaithful ts := by
  intro t ht u hu text htext hutext
  have hval : ∀ v : Expr ℚ, v.symbolicPart.poly = (productOf v.residue).poly := fun v => by
    rw [symbolicPart, poly, poly, eval_product, eval_productOf]
  rw [hval, hval]
  exact eval_eq_of_text_eq hS (.productOf (h t ht).of_mem_residue)
    (.productOf (h u hu).of_mem_residue)
    ((eq_text_of_key_eq_unexpanded htext).symm.trans (eq_text_of_key_eq_unexpanded hutext)) _

/-! ## Merging alike -/

/-- Top terms that are filed under one key have symbolic parts of one value. -/
def MergesAlike (e : Expr ℚ) : Prop :=
  ∀ t ∈ e.topTerms, ∀ u ∈ e.topTerms, t.key = u.key →
    ∀ x : Symbol → ℚ, t.symbolicPart.eval x = u.symbolicPart.eval x

theorem mergesAlike_iff {e : Expr ℚ} : e.MergesAlike ↔ KeysFaithful e.topTerms := by
  refine ⟨fun h t ht u hu text htext hutext => ?_, fun h t ht u hu hkey => ?_⟩
  · exact poly_eq_iff.2 (h t ht u hu (htext.trans hutext.symm))
  · exact poly_eq_iff.1 (h.poly_eq ht hu hkey)

theorem key_sum (ts : List (Expr ℚ)) : (sum ts).key = .unexpanded (text (sum ts)) := rfl

/-- Two sums with one text are merged, alike or not. -/
theorem MergesAlike.eval_eq {ts us : List (Expr ℚ)} (h : (sum [sum ts, sum us]).MergesAlike)
    (htext : text (sum ts) = text (sum us)) (x : Symbol → ℚ) :
    eval x (sum ts) = eval x (sum us) := by
  have hkey : (sum ts).key = (sum us).key := by rw [key_sum, key_sum, htext]
  have heval := h (sum ts) (by simp [topTerms]) (sum us) (by simp [topTerms]) hkey x
  simpa [symbolicPart, residue] using heval

/-- Among symbols that are written without marks, only legible ones are merged alike in every
tree without empty products. -/
theorem legible_of_mergesAlike {S : Set Symbol}
    (hmarks : ∀ s ∈ S, ∀ c ∈ s.text.toList, isMark c = false)
    (h : ∀ e : Expr ℚ, Spelt S e → e.MergesAlike) : Legible S := by
  have hclash : ∀ s ∈ S, ∀ ts : List (Expr ℚ), (∀ t ∈ ts, Spelt S t) → text (sum ts) = s.text →
      ∀ x : Symbol → ℚ, eval x (sum ts) = x s := by
    intro s hs ts hts htext x
    have hsingle : text (sum [(symbol s : Expr ℚ)]) = s.text := by simp [text, termTexts]
    have hspelt : Spelt S (sum [sum ts, sum [symbol s]]) :=
      .sum (by simpa using ⟨Spelt.sum hts, Spelt.sum (by simpa using Spelt.symbol hs)⟩)
    simpa using (h _ hspelt).eval_eq (htext.trans hsingle.symm) x
  refine ⟨fun s hs => ⟨fun hnil => ?_, hmarks s hs⟩, fun s hs q hq => ?_, fun s hs t ht hst => ?_⟩
  · have htext : text (sum ([] : List (Expr ℚ))) = s.text :=
      (String.toList_eq_nil_iff.1 hnil).symm
    simpa using hclash s hs [] (by simp) htext fun _ => 1
  · have htext : text (sum [(const q : Expr ℚ)]) = s.text := by
      rw [hq]
      simp [text, termTexts, Scalar.exprText]
    simpa using hclash s hs [const q] (by simpa using Spelt.const q) htext fun _ => q + 1
  · by_contra hne
    have htext : text (sum [(symbol t : Expr ℚ)]) = s.text := by simp [text, termTexts, hst]
    have := hclash s hs [symbol t] (by simpa using Spelt.symbol ht) htext fun u =>
      if u = s then 1 else 0
    simp [Ne.symm hne] at this

/-- Exactly under faithful keys, terms under one key are alike, and then merging them and dropping
the zero coefficients keep the value. Among symbols written without marks the keys are faithful
in all trees without empty products exactly if the symbols are legible. -/
theorem mergesAlike_exact (S : Set Symbol) :
    (∀ e : Expr ℚ, e.MergesAlike ↔ KeysFaithful e.topTerms) ∧
    (∀ e : Expr ℚ, e.MergesAlike → ∀ x : Symbol → ℚ,
      e.eval x = e.mergedTerms.sum (keyedValue x e.topTerms) ∧
      e.eval x = e.terms.sum (keyedValue x e.topTerms)) ∧
    ((∀ s ∈ S, ∀ c ∈ s.text.toList, isMark c = false) →
      (Legible S ↔ ∀ e : Expr ℚ, Spelt S e → e.MergesAlike)) := by
  refine ⟨fun e => mergesAlike_iff, fun e h x => ?_, fun hmarks => ⟨fun hS e he => ?_, ?_⟩⟩
  · have hfaithful := mergesAlike_iff.1 h
    exact ⟨eval_eq_sum_mergedTerms x hfaithful, eval_eq_sum_terms x hfaithful⟩
  · exact mergesAlike_iff.2 (keysFaithful_of_spelt hS he.of_mem_topTerms)
  · exact legible_of_mergesAlike hmarks

/-- Two expressions whose terms cancel although their values do not: in the first a symbol is
written like the product of two others, in the second an empty product is written like an empty
sum. Their linear form in `x` is read as zero. -/
theorem unlike_terms_merged :
    let x : Symbol := { name := "x" }
    let a : Symbol := { name := "a" }
    let b : Symbol := { name := "b" }
    let ab : Symbol := { name := "a*b" }
    let named : Expr ℚ := .sum [.product [.sum [.const 1, .symbol x], .symbol ab],
      .product [.const (-1), .sum [.const 1, .symbol x], .symbol a, .symbol b]]
    let empty : Expr ℚ := .sum [.product [.symbol x, .sum [.symbol a, .sum []]],
      .product [.const (-1), .symbol x, .sum [.symbol a, .product []]]]
    ∀ e ∈ [named, empty], ¬ e.MergesAlike ∧ e.terms.entries = [] ∧
      (∃ values : Symbol → ℚ, e.eval values ≠ 0) ∧
      ((e.linearForm [x]).run NonceSupply.first).1.toOption.map
        (fun form => (form.coefficients, form.constant)) = some ([0], 0) := by
  intro x a b ab named empty
  -- terms that cancel sum up to zero if they are merged alike
  have hunlike : ∀ e : Expr ℚ, e.terms.entries = [] → (∃ values, e.eval values ≠ (0 : ℚ)) →
      ¬ e.MergesAlike := by
    rintro e hterms ⟨values, hvalue⟩ halike
    refine hvalue ?_
    rw [eval_eq_sum_terms values (mergesAlike_iff.1 halike), Tally.sum, hterms]
    rfl
  have hnamed : named.terms.entries = [] := by decide +kernel
  have hempty : empty.terms.entries = [] := by decide +kernel
  have hnamedValue : ∃ values : Symbol → ℚ, named.eval values ≠ 0 := by
    refine ⟨fun s => if s = ab then 1 else 0, ?_⟩
    simp [named, x, a, b, ab]
  have hemptyValue : ∃ values : Symbol → ℚ, empty.eval values ≠ 0 :=
    ⟨fun _ => 1, by simp [empty]⟩
  refine List.forall_mem_cons.2 ⟨?_, List.forall_mem_singleton.2 ?_⟩
  · exact ⟨hunlike named hnamed hnamedValue, hnamed, hnamedValue, by decide +kernel⟩
  · exact ⟨hunlike empty hempty hemptyValue, hempty, hemptyValue, by decide +kernel⟩

end Expr

end Semidefinite
