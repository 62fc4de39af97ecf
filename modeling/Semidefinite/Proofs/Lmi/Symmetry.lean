import Semidefinite.Proofs.Expr.CanonicalForm
import Semidefinite.Proofs.Lmi.Symbols

/-!
# Symmetry

In exact arithmetic a matrix passes the check of symmetry exactly if it is square
and mirrored entries denote one polynomial (`isSymmetric_iff`). Negations,
differences and blocks on the diagonal of symmetric matrices are symmetric, so
the canonical matrix of an inequality with symmetric sides is
(`Lmi.isSymmetric_canonicalMatrix`).
-/

namespace Semidefinite

namespace SymMatrix

variable {m n d : SymMatrix ℚ}

/-! ## Mirrored entries -/

/-- The polynomial at a position, zero outside the matrix. -/
noncomputable def polyAt (m : SymMatrix ℚ) (i j : Nat) : MvPolynomial Symbol ℚ :=
  ((m.entry? i j).getD Expr.zero).poly

theorem polyAt_eq_zero {i j : Nat} (h : ¬ (i < m.rows ∧ j < m.cols)) : m.polyAt i j = 0 := by
  rw [polyAt, m.entry?_eq_none h, Option.getD_none, Expr.poly_zero]

/-- The matrix is square, and mirrored entries denote one polynomial. -/
structure IsSymmetric (m : SymMatrix ℚ) : Prop where
  square : m.rows = m.cols
  mirrored : ∀ i j, m.polyAt i j = m.polyAt j i

theorem agree_iff {a b : Expr ℚ} : agree a b = true ↔ a.poly = b.poly := by
  have hsub : (a - b).poly = a.poly - b.poly := Expr.eval_sub _ a b
  unfold agree
  rw [Bool.or_eq_true, beq_iff_eq, Expr.isZero_expand_iff, hsub, sub_eq_zero]
  constructor
  · rintro (rfl | h)
    · rfl
    · exact h
  · exact .inr

theorem isSymmetric_iff : isSymmetric m = true ↔ m.IsSymmetric := by
  have hread : ∀ {i j : Nat} (hi : i < m.rows) (hj : j < m.cols),
      m.polyAt i j = (m.entry ⟨i, hi⟩ ⟨j, hj⟩).poly := by
    intro i j hi hj
    rw [polyAt, m.entry?_eq_some ⟨hi, hj⟩, Option.getD_some]
  unfold isSymmetric
  by_cases h : m.rows = m.cols
  · rw [dif_pos h]
    simp only [List.all_eq_true, List.mem_finRange, true_imp_iff, Bool.or_eq_true,
      Bool.not_eq_true', decide_eq_false_iff_not, agree_iff]
    constructor
    · intro hagree
      have habove : ∀ {i j : Nat}, i < j → m.polyAt i j = m.polyAt j i := by
        intro i j hij
        by_cases hj : j < m.rows
        · have hi := Nat.lt_trans hij hj
          rw [hread hi (h ▸ hj), hread hj (h ▸ hi)]
          exact (hagree ⟨i, hi⟩ ⟨j, hj⟩).resolve_left (not_not_intro hij)
        · rw [polyAt_eq_zero (by omega), polyAt_eq_zero (by omega)]
      refine ⟨h, fun i j => ?_⟩
      rcases Nat.lt_trichotomy i j with hij | rfl | hij
      · exact habove hij
      · rfl
      · exact (habove hij).symm
    · intro hsymmetric i j
      have hij := hsymmetric.mirrored i j
      rw [hread i.isLt (h ▸ j.isLt), hread j.isLt (h ▸ i.isLt)] at hij
      exact .inr hij
  · rw [dif_neg h]
    constructor
    · intro hfalse
      cases hfalse
    · exact fun hsymmetric => absurd hsymmetric.square h

/-! ## Operations -/

theorem IsSymmetric.negate (h : m.IsSymmetric) : IsSymmetric (negate m) := by
  have hnegate : ∀ i j, polyAt (SymMatrix.negate m) i j = -m.polyAt i j := by
    intro i j
    have hentry : Grid.entry? (SymMatrix.negate m) i j = (m.entry? i j).map Expr.negate :=
      Grid.entry?_map _ _ i j
    rw [polyAt, polyAt, hentry]
    cases m.entry? i j with
    | none => rw [Option.map_none, Option.getD_none, Expr.poly_zero, neg_zero]
    | some e => exact Expr.eval_negate _ e
  refine ⟨h.square, fun i j => ?_⟩
  rw [hnegate, hnegate, h.mirrored]

theorem IsSymmetric.entrywiseDifference (hm : m.IsSymmetric) (hn : n.IsSymmetric)
    (hd : BlockMatrix.entrywiseDifference m n = .ok d) : d.IsSymmetric := by
  obtain ⟨hrows, hcols, hentry⟩ := BlockMatrix.entry?_entrywiseDifference hd
  have hsquare := hm.square
  have hinside : ∀ {i j : Nat}, i < m.rows ∧ j < m.cols →
      d.polyAt i j = m.polyAt i j - n.polyAt i j := by
    intro i j hij
    have hread := m.entry?_eq_some hij
    rw [polyAt, hentry i j _ hread, polyAt, hread, Option.getD_some, Option.getD_some, polyAt]
    exact Expr.eval_sub _ _ _
  refine ⟨by rw [hrows, hcols, hsquare], fun i j => ?_⟩
  by_cases hij : i < m.rows ∧ j < m.cols
  · rw [hinside hij, hinside (by omega), hm.mirrored, hn.mirrored]
  · rw [polyAt_eq_zero (by omega), polyAt_eq_zero (by omega)]

/-- Along the diagonal, mirrored positions lie in one block or in none. -/
theorem poly_diagonalCell?_comm {blocks : List (SymMatrix ℚ)} (h : ∀ b ∈ blocks, b.IsSymmetric)
    (i j : Nat) : ((Grid.diagonalCell? blocks i j).getD Expr.zero).poly =
      ((Grid.diagonalCell? blocks j i).getD Expr.zero).poly := by
  induction blocks generalizing i j with
  | nil => rfl
  | cons b rest ih =>
    obtain ⟨hb, hrest⟩ := List.forall_mem_cons.1 h
    have hsquare : b.rows = b.cols := hb.square
    unfold Grid.diagonalCell?
    rw [← hsquare]
    by_cases hfirst : i < b.rows ∧ j < b.rows
    · rw [if_pos hfirst, if_pos hfirst.symm]
      exact hb.mirrored i j
    · have hfirst' : ¬ (j < b.rows ∧ i < b.rows) := fun hji => hfirst hji.symm
      rw [if_neg hfirst, if_neg hfirst']
      by_cases hlater : b.rows ≤ i ∧ b.rows ≤ j
      · rw [if_pos hlater, if_pos hlater.symm]
        exact ih hrest _ _
      · have hlater' : ¬ (b.rows ≤ j ∧ b.rows ≤ i) := fun hji => hlater hji.symm
        rw [if_neg hlater, if_neg hlater']

theorem isSymmetric_blockDiagonal {blocks : List (SymMatrix ℚ)} (h : ∀ b ∈ blocks, b.IsSymmetric) :
    IsSymmetric (blockDiagonal blocks) := by
  have hread : ∀ i j, polyAt (blockDiagonal blocks) i j =
      ((Grid.diagonalCell? blocks i j).getD Expr.zero).poly := by
    intro i j
    by_cases hij : i < (blocks.map Grid.rows).sum ∧ j < (blocks.map Grid.cols).sum
    · rw [polyAt, blockDiagonal, Grid.entry?_blockDiagonal _ _ hij, Option.getD_some]
    · rw [polyAt_eq_zero hij, Grid.diagonalCell?_eq_none hij, Option.getD_none, Expr.poly_zero]
  refine ⟨congrArg List.sum (List.map_congr_left fun b hb => (h b hb).square), fun i j => ?_⟩
  rw [hread, hread, poly_diagonalCell?_comm h]

end SymMatrix

namespace BlockMatrix

variable {m left right d : BlockMatrix ℚ}

theorem isSymmetric_blocks {parts : List (SymMatrix ℚ)} :
    (blocks parts).isSymmetric = true ↔ ∀ p ∈ parts, SymMatrix.IsSymmetric p := by
  simp only [isSymmetric, List.all_eq_true, SymMatrix.isSymmetric_iff]

theorem isSymmetric_iff_parts :
    m.isSymmetric = true ↔ ∀ p ∈ m.parts, SymMatrix.IsSymmetric p := by
  cases m with
  | whole m => exact SymMatrix.isSymmetric_iff.trans List.forall_mem_singleton.symm
  | blocks parts => exact isSymmetric_blocks

theorem isSymmetric_toDense (h : m.isSymmetric = true) : SymMatrix.IsSymmetric m.toDense := by
  cases m with
  | whole m => exact SymMatrix.isSymmetric_iff.1 h
  | blocks parts => exact SymMatrix.isSymmetric_blockDiagonal (isSymmetric_blocks.1 h)

theorem isSymmetric_negate (h : m.isSymmetric = true) : m.negate.isSymmetric = true := by
  cases m with
  | whole m => exact SymMatrix.isSymmetric_iff.2 (SymMatrix.isSymmetric_iff.1 h).negate
  | blocks parts =>
    refine isSymmetric_blocks.2 fun q hq => ?_
    obtain ⟨p, hp, rfl⟩ := List.mem_map.1 hq
    exact (isSymmetric_blocks.1 h p hp).negate

theorem isSymmetric_difference (hleft : left.isSymmetric = true) (hright : right.isSymmetric = true)
    (hd : left.difference right = .ok d) : d.isSymmetric = true := by
  rcases difference_cases hd with ⟨ms, ns, ds, rfl, rfl, rfl, -, hds⟩ | ⟨m, rfl, hm⟩
  · refine isSymmetric_blocks.2 fun d hd => ?_
    obtain ⟨⟨m, n⟩, hmn, hdiff⟩ := exists_of_mem_right (Except.forall₂_of_mapM_eq_ok hds) hd
    obtain ⟨hm, hn⟩ := List.of_mem_zip hmn
    exact (isSymmetric_blocks.1 hleft m hm).entrywiseDifference (isSymmetric_blocks.1 hright n hn)
      hdiff
  · exact SymMatrix.isSymmetric_iff.2
      ((isSymmetric_toDense hleft).entrywiseDifference (isSymmetric_toDense hright) hm)

end BlockMatrix

theorem Lmi.isSymmetric_canonicalMatrix {l : Lmi ℚ} {m : BlockMatrix ℚ}
    (hsides : l.lhs.isSymmetric = true ∧ l.rhs.isSymmetric = true)
    (hm : l.canonicalMatrix = .ok m) : m.isSymmetric = true := by
  have hside : ∀ {s : BlockMatrix ℚ}, l.greater = .matrix s ∨ l.lesser = .matrix s →
      s.isSymmetric = true := fun hs => isSymmetric_of_isSide (isSide_iff.2 hs) hsides
  unfold canonicalMatrix at hm
  cases hgreater : l.greater with
  | zero =>
    cases hlesser : l.lesser with
    | zero =>
      rw [hgreater, hlesser] at hm
      cases hm
    | matrix b =>
      rw [hgreater, hlesser] at hm
      cases hm
      exact BlockMatrix.isSymmetric_negate (hside (.inr hlesser))
  | matrix a =>
    cases hlesser : l.lesser with
    | zero =>
      rw [hgreater, hlesser] at hm
      cases hm
      exact hside (.inl hgreater)
    | matrix b =>
      rw [hgreater, hlesser] at hm
      exact BlockMatrix.isSymmetric_difference (hside (.inl hgreater)) (hside (.inr hlesser)) hm

end Semidefinite
