import Semidefinite.Proofs.Cutting.Splitting
import Semidefinite.Proofs.Expr.Expansion

/-!
# What cutting keeps

A matrix is cut into blocks (`IsCutInto`) if the blocks along the diagonal have
its shape and its entries, and what they leave out denotes zero. Splitting cuts a
matrix (`isCutInto_splitBlocks`), and cutting each of several blocks cuts the
matrix that they make up (`isCutInto_flatten`). What a function makes of the
blocks is then what it makes of the matrix, if zero polynomials make no
difference to it (`IsCutInto.map_blockDiagonal`).
-/

namespace Semidefinite

/-- Placed along the diagonal the blocks have the shape of `m`. An entry inside a block is the
entry of `m` at that position, and an entry of `m` outside all blocks denotes zero. -/
structure IsCutInto (m : SymMatrix ℚ) (blocks : List (SymMatrix ℚ)) : Prop where
  shape : Grid.shape (SymMatrix.blockDiagonal blocks) = Grid.shape m
  inside : ∀ i j e, Grid.diagonalCell? blocks i j = some e → m.entry? i j = some e
  outside : ∀ i j e, Grid.diagonalCell? blocks i j = none → m.entry? i j = some e → e.poly = 0

theorem Expr.poly_zero : (Expr.zero : Expr ℚ).poly = 0 := by
  simp [Expr.poly, Expr.zero]

theorem SymMatrix.poly_of_vanishes {e : Expr ℚ} (h : SymMatrix.vanishes e = true) : e.poly = 0 := by
  unfold SymMatrix.vanishes at h
  rw [Bool.or_eq_true] at h
  rcases h with h | h
  · exact Expr.eval_of_isZero _ h
  · rw [← Expr.poly_expand]
    exact Expr.eval_of_isZero _ h

section Cut
variable {m : SymMatrix ℚ} {blocks : List (SymMatrix ℚ)}

theorem IsCutInto.rows_eq (h : IsCutInto m blocks) : (blocks.map Grid.rows).sum = m.rows :=
  (Prod.mk.inj h.shape).1

theorem IsCutInto.cols_eq (h : IsCutInto m blocks) : (blocks.map Grid.cols).sum = m.cols :=
  (Prod.mk.inj h.shape).2

theorem isCutInto_parts (parts : List (SymMatrix ℚ)) :
    IsCutInto (SymMatrix.blockDiagonal parts) parts where
  shape := rfl
  inside i j e he := by
    have hin : i < (parts.map Grid.rows).sum ∧ j < (parts.map Grid.cols).sum := by
      by_contra hout
      rw [Grid.diagonalCell?_eq_none hout] at he
      cases he
    rw [SymMatrix.blockDiagonal, Grid.entry?_blockDiagonal _ _ hin, he, Option.getD_some]
  outside i j e hcell he := by
    rw [SymMatrix.blockDiagonal,
      Grid.entry?_blockDiagonal _ _ (Grid.lt_of_entry?_eq_some he), hcell] at he
    cases he
    exact Expr.poly_zero

theorem isCutInto_singleton (m : SymMatrix ℚ) : IsCutInto m [m] := by
  have h := isCutInto_parts [m]
  rwa [SymMatrix.blockDiagonal, Grid.blockDiagonal_singleton] at h

/-- What is cut off at the boundaries vanishes. -/
theorem isCutInto_splitBlocks (h : m.splitBlocks = .ok blocks) : IsCutInto m blocks := by
  obtain ⟨hsquare, rfl⟩ := SymMatrix.splitBlocks_eq_ok h
  have hpartition := m.isPartition_cuts
  have hrows : (m.pieces.map Grid.rows).sum = m.rows := by
    rw [← hpartition.getLast?_getD, ← Grid.sum_rows_cutAt hpartition.ascending, Nat.zero_add]
    rfl
  have hcols : (m.pieces.map Grid.cols).sum = m.cols := by
    rw [List.map_congr_left fun w hw => Grid.cols_of_mem_cutAt hw, hrows, hsquare]
  have hbounds : ∀ b ∈ m.cuts, b ≤ m.rows ∧ b ≤ m.cols := fun b hb =>
    ⟨hpartition.le_of_mem hb, hsquare ▸ hpartition.le_of_mem hb⟩
  have hread : ∀ i j, (SharesSpan 0 m.cuts i j →
        Grid.diagonalCell? m.pieces i j = m.entry? i j) ∧
      (¬ SharesSpan 0 m.cuts i j → Grid.diagonalCell? m.pieces i j = none) := by
    intro i j
    have hcell := Grid.diagonalCell?_cutAt Expr.zero hpartition.ascending hbounds i j
    rwa [Nat.zero_add, Nat.zero_add] at hcell
  refine ⟨Prod.ext hrows hcols, fun i j e he => ?_, fun i j e hcell he => ?_⟩
  · by_cases hshares : SharesSpan 0 m.cuts i j
    · rwa [(hread i j).1 hshares] at he
    · rw [(hread i j).2 hshares] at he
      cases he
  · have hin := Grid.lt_of_entry?_eq_some he
    have hshares : ¬ SharesSpan 0 m.cuts i j := by
      intro hshares
      rw [(hread i j).1 hshares, he] at hcell
      cases hcell
    have hzero : m.zeroAt i j = true := by
      by_contra hne
      exact hshares (covers_cuts m.zeroAt m.rows i j hin.1 (hsquare ▸ hin.2)
        (Bool.eq_false_of_not_eq_true hne))
    rw [SymMatrix.zeroAt, he, Option.all_some] at hzero
    exact SymMatrix.poly_of_vanishes hzero

section Cons
variable {ms rest : List (SymMatrix ℚ)} (hm : IsCutInto m blocks)
  (hrest : IsCutInto (SymMatrix.blockDiagonal ms) rest)
include hm

/-- Beside the blocks of `m` further blocks lie where they lie beside `m` itself. -/
theorem IsCutInto.diagonalCell?_append (i j : Nat) :
    Grid.diagonalCell? (blocks ++ rest) i j =
      if i < m.rows ∧ j < m.cols then Grid.diagonalCell? blocks i j
      else if m.rows ≤ i ∧ m.cols ≤ j then Grid.diagonalCell? rest (i - m.rows) (j - m.cols)
      else none := by
  rw [Grid.diagonalCell?_append, hm.rows_eq, hm.cols_eq]

include hrest

theorem IsCutInto.shape_append :
    Grid.shape (SymMatrix.blockDiagonal (blocks ++ rest)) =
      Grid.shape (SymMatrix.blockDiagonal (m :: ms)) := by
  have hrows : ((blocks ++ rest).map Grid.rows).sum = m.rows + (ms.map Grid.rows).sum := by
    rw [List.map_append, List.sum_append, hm.rows_eq, hrest.rows_eq]
    rfl
  have hcols : ((blocks ++ rest).map Grid.cols).sum = m.cols + (ms.map Grid.cols).sum := by
    rw [List.map_append, List.sum_append, hm.cols_eq, hrest.cols_eq]
    rfl
  exact Prod.ext hrows hcols

/-- Cutting the first of several blocks and the rest cuts the matrix that they make up. -/
theorem IsCutInto.cons : IsCutInto (SymMatrix.blockDiagonal (m :: ms)) (blocks ++ rest) where
  shape := hm.shape_append hrest
  inside i j e he := by
    obtain ⟨hrows, hcols⟩ := Prod.mk.inj (hm.shape_append hrest)
    have hin : i < m.rows + (ms.map Grid.rows).sum ∧ j < m.cols + (ms.map Grid.cols).sum := by
      by_contra hout
      rw [Grid.diagonalCell?_eq_none fun hin => hout ⟨Nat.lt_of_lt_of_eq hin.1 hrows,
        Nat.lt_of_lt_of_eq hin.2 hcols⟩] at he
      cases he
    rw [hm.diagonalCell?_append] at he
    rw [SymMatrix.blockDiagonal, Grid.entry?_blockDiagonal_cons _ _ _ hin]
    by_cases hfirst : i < m.rows ∧ j < m.cols
    · rw [if_pos hfirst] at he ⊢
      exact hm.inside i j e he
    · rw [if_neg hfirst] at he ⊢
      split at he
      · rw [if_pos ‹_›]
        exact hrest.inside _ _ e he
      · cases he
  outside i j e hnone he := by
    rw [hm.diagonalCell?_append] at hnone
    rw [SymMatrix.blockDiagonal,
      Grid.entry?_blockDiagonal_cons _ _ _ (Grid.lt_of_entry?_eq_some he)] at he
    by_cases hfirst : i < m.rows ∧ j < m.cols
    · rw [if_pos hfirst] at hnone he
      exact hm.outside i j e hnone he
    · rw [if_neg hfirst] at hnone he
      by_cases hlater : m.rows ≤ i ∧ m.cols ≤ j
      · rw [if_pos hlater] at hnone he
        exact hrest.outside _ _ e hnone he
      · rw [if_neg hlater] at he
        cases he
        exact Expr.poly_zero

end Cons

/-- Cutting every block cuts the matrix that the blocks make up. -/
theorem isCutInto_flatten {ms : List (SymMatrix ℚ)} {lists : List (List (SymMatrix ℚ))}
    (h : List.Forall₂ IsCutInto ms lists) :
    IsCutInto (SymMatrix.blockDiagonal ms) lists.flatten := by
  induction h with
  | nil => exact isCutInto_parts []
  | cons hm _ ih =>
    rw [List.flatten_cons]
    exact hm.cons ih

/-- A function that takes zero polynomials to one value makes the same of the blocks as of the
matrix. -/
theorem IsCutInto.map_blockDiagonal {β : Type} {f : Expr ℚ → β} {fill : β}
    (h : IsCutInto m blocks) (hf : ∀ e : Expr ℚ, e.poly = 0 → f e = fill) :
    Grid.blockDiagonal fill (blocks.map (Grid.map f)) = Grid.map f m := by
  have hfill : f Expr.zero = fill := hf _ Expr.poly_zero
  rw [← hfill, ← Grid.map_blockDiagonal]
  refine Grid.ext_entry? h.rows_eq h.cols_eq fun i j hi hj => ?_
  have hin : i < m.rows ∧ j < m.cols := ⟨h.rows_eq ▸ hi, h.cols_eq ▸ hj⟩
  have hentry := m.entry?_eq_some hin
  rw [Grid.entry?_map, Grid.entry?_map, Grid.entry?_blockDiagonal _ _ ⟨hi, hj⟩]
  cases hcell : Grid.diagonalCell? blocks i j with
  | none =>
    have hzero := hf _ (h.outside i j _ hcell hentry)
    rw [Option.getD_none, hentry, Option.map_some, Option.map_some, hfill, hzero]
  | some e => rw [h.inside i j e hcell, Option.getD_some]

/-- The blocks have no entries of their own. -/
theorem IsCutInto.exists_entry (h : IsCutInto m blocks) {b : SymMatrix ℚ} (hb : b ∈ blocks)
    {i j : Nat} {e : Expr ℚ} (he : Grid.entry? b i j = some e) : ∃ r c, m.entry? r c = some e := by
  obtain ⟨r, c, hcell⟩ := Grid.exists_diagonalCell?_iff.2 ⟨b, hb, i, j, he⟩
  exact ⟨r, c, h.inside r c e hcell⟩

/-- What holds of zero polynomials holds of all entries exactly if it holds of those of the
blocks. -/
theorem IsCutInto.forall_entries_iff (h : IsCutInto m blocks) {P : Expr ℚ → Prop}
    (hP : ∀ e : Expr ℚ, e.poly = 0 → P e) :
    (∀ b ∈ blocks, ∀ i j e, Grid.entry? b i j = some e → P e) ↔
      ∀ i j e, m.entry? i j = some e → P e := by
  refine ⟨fun hall i j e he => ?_, fun hall b hb i j e he => ?_⟩
  · cases hcell : Grid.diagonalCell? blocks i j with
    | none => exact hP e (h.outside i j e hcell he)
    | some e' =>
      have he' := h.inside i j e' hcell
      rw [he] at he'
      cases he'
      obtain ⟨b, hb, r, c, hentry⟩ := Grid.exists_diagonalCell?_iff.1 ⟨i, j, hcell⟩
      exact hall b hb r c e hentry
  · obtain ⟨r, c, hentry⟩ := h.exists_entry hb he
    exact hall r c e hentry

end Cut

end Semidefinite
