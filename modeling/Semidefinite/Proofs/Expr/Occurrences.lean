import Semidefinite.Proofs.Expr.Value
import Semidefinite.Proofs.Order

/-!
# Symbols of built expressions

The normalising constructors bring in no symbol, so an expression that is built
from others has only their symbols.
-/

namespace Semidefinite

open Std

/-! ## Ascending lists -/

section Ascending
variable {α : Type} [Ord α] [LawfulEqOrd α]

theorem mem_insertAscending {a b : α} {items : List α} :
    b ∈ insertAscending a items ↔ b = a ∨ b ∈ items := by
  induction items with
  | nil => simp [insertAscending]
  | cons c rest ih =>
    unfold insertAscending
    split
    · simp
    · rename_i hcompare
      obtain rfl : a = c := LawfulEqOrd.eq_of_compare hcompare
      simp
    · rw [List.mem_cons, ih, List.mem_cons]
      exact or_left_comm

theorem mem_ascending {b : α} {items : List α} : b ∈ ascending items ↔ b ∈ items := by
  have hfold : ∀ acc : List α,
      b ∈ items.foldl (fun acc a => insertAscending a acc) acc ↔ b ∈ acc ∨ b ∈ items := by
    induction items with
    | nil => simp
    | cons a rest ih =>
      intro acc
      rw [List.foldl_cons, ih, mem_insertAscending, List.mem_cons]
      refine ⟨?_, ?_⟩
      · rintro ((rfl | h) | h)
        · exact .inr (.inl rfl)
        · exact .inl h
        · exact .inr (.inr h)
      · rintro (h | rfl | h)
        · exact .inl (.inr h)
        · exact .inl (.inl rfl)
        · exact .inr h
  unfold ascending
  rw [hfold]
  simp

variable [TransOrd α]

theorem pairwise_insertAscending {a : α} {items : List α}
    (h : items.Pairwise fun b c => compare b c = .lt) :
    (insertAscending a items).Pairwise fun b c => compare b c = .lt := by
  induction items with
  | nil => exact List.pairwise_singleton _ _
  | cons b rest ih =>
    obtain ⟨hb, hrest⟩ := List.pairwise_cons.1 h
    unfold insertAscending
    split
    · rename_i hab
      refine List.pairwise_cons.2 ⟨List.forall_mem_cons.2 ⟨hab, fun c hc => ?_⟩, h⟩
      exact TransCmp.lt_trans hab (hb c hc)
    · exact h
    · rename_i hba
      refine List.pairwise_cons.2 ⟨fun c hc => ?_, ih hrest⟩
      rcases mem_insertAscending.1 hc with rfl | hc
      · exact OrientedCmp.lt_of_gt hba
      · exact hb c hc

theorem pairwise_ascending (items : List α) :
    (ascending items).Pairwise fun a b => compare a b = .lt := by
  have hfold : ∀ acc : List α, acc.Pairwise (fun a b => compare a b = .lt) →
      (items.foldl (fun acc a => insertAscending a acc) acc).Pairwise
        fun a b => compare a b = .lt := by
    induction items with
    | nil => exact fun _ h => h
    | cons a rest ih => exact fun acc h => ih _ (pairwise_insertAscending h)
  exact hfold [] .nil

end Ascending

namespace Expr

section Parts
variable {K : Type} {s : Symbol}

theorem mem_occurrences_of_mem_summands {e : Expr K} :
    ∀ t ∈ summands e, s ∈ t.occurrences → s ∈ e.occurrences := by
  induction e using inductionOn with
  | sum ts ih =>
    intro t ht hs
    unfold summands at ht
    obtain ⟨u, hu, ht⟩ := mem_summandsList.1 ht
    unfold occurrences
    exact mem_occurrencesList.2 ⟨u, hu, ih u hu t ht hs⟩
  | _ => simp [summands]

theorem mem_occurrences_of_mem_factors {e : Expr K} :
    ∀ t ∈ factors e, s ∈ t.occurrences → s ∈ e.occurrences := by
  induction e using inductionOn with
  | product ts ih =>
    intro t ht hs
    unfold factors at ht
    obtain ⟨u, hu, ht⟩ := mem_factorsList.1 ht
    unfold occurrences
    exact mem_occurrencesList.2 ⟨u, hu, ih u hu t ht hs⟩
  | _ => simp [factors]

variable [Scalar K]

theorem mem_occurrences_of_mem_sumItems {ts : List (Expr K)} {t : Expr K} (ht : t ∈ sumItems ts)
    (hs : s ∈ t.occurrences) : ∃ u ∈ ts, s ∈ u.occurrences := by
  rcases mem_sumItems ht with ⟨c, rfl⟩ | ⟨ht, -⟩
  · simp [occurrences] at hs
  · obtain ⟨u, hu, ht⟩ := mem_summandsList.1 ht
    exact ⟨u, hu, mem_occurrences_of_mem_summands t ht hs⟩

theorem mem_occurrences_of_mem_productItems {ts : List (Expr K)} {t : Expr K}
    (ht : t ∈ productItems ts) (hs : s ∈ t.occurrences) : ∃ u ∈ ts, s ∈ u.occurrences := by
  rcases mem_productItems ht with ⟨c, rfl⟩ | ⟨ht, -⟩
  · simp [occurrences] at hs
  · obtain ⟨u, hu, ht⟩ := mem_factorsList.1 ht
    exact ⟨u, hu, mem_occurrences_of_mem_factors t ht hs⟩

theorem mem_occurrences_sumOf {ts : List (Expr K)} (hs : s ∈ (sumOf ts).occurrences) :
    ∃ t ∈ ts, s ∈ t.occurrences := by
  rcases sumOf_cases ts with ⟨-, ho⟩ | ⟨only, hi, ho⟩ | ⟨-, ho⟩
  · simp [ho, zero, occurrences] at hs
  · exact mem_occurrences_of_mem_sumItems (by simp [hi]) (ho ▸ hs)
  · rw [ho, occurrences, mem_occurrencesList] at hs
    obtain ⟨t, ht, hs⟩ := hs
    exact mem_occurrences_of_mem_sumItems ht hs

theorem mem_occurrences_productOf {ts : List (Expr K)} (hs : s ∈ (productOf ts).occurrences) :
    ∃ t ∈ ts, s ∈ t.occurrences := by
  rcases productOf_cases ts with ⟨-, ho⟩ | ⟨-, ⟨-, ho⟩ | ⟨only, hi, ho⟩ | ⟨-, ho⟩⟩
  · simp [ho, zero, occurrences] at hs
  · simp [ho, occurrences] at hs
  · exact mem_occurrences_of_mem_productItems (by simp [hi]) (ho ▸ hs)
  · rw [ho, occurrences, mem_occurrencesList] at hs
    obtain ⟨t, ht, hs⟩ := hs
    exact mem_occurrences_of_mem_productItems ht hs

theorem mem_occurrences_negate {e : Expr K} (hs : s ∈ e.negate.occurrences) :
    s ∈ e.occurrences := by
  obtain ⟨t, ht, hs⟩ := mem_occurrences_productOf hs
  rcases List.mem_cons.1 ht with rfl | ht
  · simp [occurrences] at hs
  · rwa [List.mem_singleton.1 ht] at hs

theorem mem_occurrences_sub {a b : Expr K} (hs : s ∈ (a - b).occurrences) :
    s ∈ a.occurrences ∨ s ∈ b.occurrences := by
  have hsum : s ∈ (sumOf [a, b.negate]).occurrences := hs
  obtain ⟨t, ht, hst⟩ := mem_occurrences_sumOf hsum
  rcases List.mem_cons.1 ht with rfl | ht
  · exact .inl hst
  · rw [List.mem_singleton.1 ht] at hst
    exact .inr (mem_occurrences_negate hst)

end Parts

end Expr

end Semidefinite
