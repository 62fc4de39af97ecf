import Semidefinite.Proofs.BlockCuts
import Semidefinite.Proofs.Order

/-!
# Patterns of zeros and their cuts

An ascending list of all cuts is the list that the scan finds (`cuts_eq`), so the
cuts of a pattern that is made of others are known without another scan: those of
two patterns along the diagonal follow each other (`cuts_append`), and what lies
between two cuts with none between them has no cut but its end (`cuts_between`).
-/

namespace Semidefinite

section Cuts
variable {isZero : Nat → Nat → Bool} {n : Nat} {ends : List Nat}

/-- The scan finds the one ascending list of the cuts. -/
theorem cuts_eq (hasc : ends.Pairwise (· < ·)) (hmem : ∀ b, b ∈ ends ↔ IsCut isZero n b) :
    cutsFrom isZero n n 0 0 = ends := by
  refine eq_of_ordered Nat.lt_asymm (cutsFrom_ascending isZero n n 0 0) hasc fun b => ?_
  rw [mem_cuts_iff, hmem]

/-- Only the entries inside the matrix count. -/
theorem cuts_congr {isZero' : Nat → Nat → Bool}
    (h : ∀ i j, i < n → j < n → isZero i j = isZero' i j) :
    cutsFrom isZero n n 0 0 = cutsFrom isZero' n n 0 0 := by
  refine cuts_eq (cutsFrom_ascending isZero' n n 0 0) fun b => mem_cuts_iff.trans ⟨?_, ?_⟩
  · intro hcut
    refine ⟨hcut.pos, hcut.le, fun i j hi hj hjn => ?_⟩
    have hb := hcut.le
    rw [h i j (by omega) hjn, h j i hjn (by omega)]
    exact hcut.zeros i j hi hj hjn
  · intro hcut
    refine ⟨hcut.pos, hcut.le, fun i j hi hj hjn => ?_⟩
    have hb := hcut.le
    rw [← h i j (by omega) hjn, ← h j i hjn (by omega)]
    exact hcut.zeros i j hi hj hjn

/-- The cuts of two patterns along the diagonal are those of the first, and those of the second
moved past it. -/
theorem cuts_append {n₁ n₂ : Nat}
    (h : ∀ i j, i < n₁ → n₁ ≤ j → j < n₁ + n₂ → isZero i j = true ∧ isZero j i = true) :
    cutsFrom isZero (n₁ + n₂) (n₁ + n₂) 0 0 =
      cutsFrom isZero n₁ n₁ 0 0 ++
        (cutsFrom (fun i j => isZero (n₁ + i) (n₁ + j)) n₂ n₂ 0 0).map (n₁ + ·) := by
  refine cuts_eq ?_ fun b => ?_
  · rw [List.pairwise_append, List.pairwise_map]
    refine ⟨cutsFrom_ascending _ _ _ _ _, ?_, fun b hb d hd => ?_⟩
    · exact (cutsFrom_ascending _ n₂ n₂ 0 0).imp fun {b c} hlt => Nat.add_lt_add_left hlt n₁
    · obtain ⟨c, hc, rfl⟩ := List.mem_map.1 hd
      have hle := (mem_cuts_iff.1 hb).le
      have hpos := (mem_cuts_iff.1 hc).pos
      omega
  · rw [List.mem_append, List.mem_map, mem_cuts_iff]
    refine ⟨?_, fun hcut => ?_⟩
    · rintro (hcut | ⟨c, hc, rfl⟩)
      · have hle := hcut.le
        refine ⟨hcut.pos, by omega, fun i j hi hj hjn => ?_⟩
        by_cases hfirst : j < n₁
        · exact hcut.zeros i j hi hj hfirst
        · exact h i j (by omega) (by omega) hjn
      · have hcut := mem_cuts_iff.1 hc
        have hpos := hcut.pos
        have hle := hcut.le
        refine ⟨by omega, by omega, fun i j hi hj hjn => ?_⟩
        by_cases hfirst : i < n₁
        · exact h i j hfirst (by omega) hjn
        · have hzeros := hcut.zeros (i - n₁) (j - n₁) (by omega) (by omega) (by omega)
          rwa [Nat.add_sub_cancel' (by omega : n₁ ≤ i), Nat.add_sub_cancel' (by omega : n₁ ≤ j)]
            at hzeros
    · have hpos := hcut.pos
      have hle := hcut.le
      by_cases hfirst : b ≤ n₁
      · exact .inl ⟨hpos, hfirst, fun i j hi hj hjn => hcut.zeros i j hi hj (by omega)⟩
      · refine .inr ⟨b - n₁, mem_cuts_iff.2 ⟨by omega, by omega, fun i j hi hj hjn => ?_⟩, by omega⟩
        exact hcut.zeros (n₁ + i) (n₁ + j) (by omega) (by omega) (by omega)

/-- Between the top or a cut and the next cut there is nothing to cut. -/
theorem cuts_between {start stop : Nat} (hstart : start = 0 ∨ IsCut isZero n start)
    (hstop : IsCut isZero n stop) (hlt : start < stop)
    (hnone : ∀ b, start < b → b < stop → ¬ IsCut isZero n b) :
    cutsFrom (fun i j => isZero (start + i) (start + j)) (stop - start) (stop - start) 0 0 =
      [stop - start] := by
  refine cuts_eq (List.pairwise_singleton _ _) fun b => ?_
  rw [List.mem_singleton]
  refine ⟨?_, fun hcut => ?_⟩
  · rintro rfl
    exact ⟨by omega, Nat.le_refl _, fun i j _ hj hjn => by omega⟩
  · -- an earlier end would be a cut of the whole
    by_contra hne
    have hpos := hcut.pos
    have hle := hcut.le
    have hstopLe := hstop.le
    refine hnone (start + b) (by omega) (by omega) ⟨by omega, by omega, fun i j hi hj hjn => ?_⟩
    by_cases hbefore : i < start
    · rcases hstart with rfl | hstart
      · omega
      · exact hstart.zeros i j hbefore (by omega) hjn
    · by_cases hafter : stop ≤ j
      · exact hstop.zeros i j (by omega) hafter hjn
      · have hzeros := hcut.zeros (i - start) (j - start) (by omega) (by omega) (by omega)
        rwa [Nat.add_sub_cancel' (by omega : start ≤ i), Nat.add_sub_cancel' (by omega : start ≤ j)]
          at hzeros

end Cuts

/-! ## Consecutive spans -/

/-- A span leads from the start or an end to the next end. -/
theorem mem_spans {start : Nat} {ends : List Nat} (hasc : (start :: ends).Pairwise (· < ·))
    {span : Nat × Nat} (h : span ∈ spans start ends) :
    (span.1 = start ∨ span.1 ∈ ends) ∧ span.2 ∈ ends ∧ span.1 < span.2 ∧
      ∀ b ∈ ends, span.1 < b → span.2 ≤ b := by
  induction ends generalizing start with
  | nil => cases h
  | cons stop rest ih =>
    obtain ⟨hstart, htail⟩ := List.pairwise_cons.1 hasc
    have hlater := (List.pairwise_cons.1 htail).1
    rw [spans] at h
    rcases List.mem_cons.1 h with rfl | h
    · refine ⟨.inl rfl, List.mem_cons_self, hstart stop List.mem_cons_self, fun b hb _ => ?_⟩
      rcases List.mem_cons.1 hb with rfl | hb
      · exact Nat.le_refl _
      · exact Nat.le_of_lt (hlater b hb)
    · obtain ⟨hfirst, hsecond, hlt, hnext⟩ := ih htail h
      refine ⟨.inr (List.mem_cons.2 hfirst), List.mem_cons_of_mem _ hsecond, hlt,
        fun b hb hb1 => ?_⟩
      rcases List.mem_cons.1 hb with rfl | hb
      · -- the first end lies before every later span
        rcases hfirst with hfirst | hfirst
        · omega
        · have := hlater _ hfirst
          omega
      · exact hnext b hb hb1

theorem IsPartition.getLast?_getD {n : Nat} {ends : List Nat} (h : IsPartition n ends) :
    ends.getLast?.getD 0 = n := by
  rcases Nat.eq_zero_or_pos n with rfl | hpos
  · rw [h.eq_nil]
    rfl
  · rw [h.getLast?_eq hpos, Option.getD_some]

end Semidefinite
