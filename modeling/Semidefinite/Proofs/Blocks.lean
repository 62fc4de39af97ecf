import Semidefinite.Problem
import Semidefinite.Proofs.Cutting.Lossless
import Semidefinite.Proofs.Lmi.Canonical

/-!
# Blocks have the values of their matrices

However a canonical matrix is cut, it loses only entries that denote zero
(`BlockMatrix.isCutInto_cut`). Hence the blocks of a list of inequalities have the
values of their differences (`blockValues_canonicalBlocks`).
-/

namespace Semidefinite

/-! ## Values of blocks -/

section Values
variable (x : Symbol → ℚ)

/-- The values of matrices that are placed along the diagonal. -/
def blockValues (blocks : List (SymMatrix ℚ)) : Grid ℚ :=
  Grid.blockDiagonal 0 (blocks.map (Grid.map (Expr.eval x)))

theorem blockValues_flatten (lists : List (List (SymMatrix ℚ))) :
    blockValues x lists.flatten = Grid.blockDiagonal 0 (lists.map (blockValues x)) := by
  rw [blockValues, List.map_flatten, Grid.blockDiagonal_flatten, List.map_map]
  rfl

theorem IsCutInto.blockValues_eq {m : SymMatrix ℚ} {blocks : List (SymMatrix ℚ)}
    (h : IsCutInto m blocks) : blockValues x blocks = Grid.map (Expr.eval x) m :=
  h.map_blockDiagonal fun e he => by rw [← Expr.aeval_poly, he, map_zero]

end Values

/-! ## Blocks of inequalities -/

section Blocks
variable {cutting : Cutting} {blocks : List (SymMatrix ℚ)}

/-- A matrix is left whole, keeps the blocks that it carries, or is cut finely: as one matrix or
block by block. -/
theorem BlockMatrix.cut_cases {K : Type} [Scalar K] {m : BlockMatrix K}
    {blocks : List (SymMatrix K)} (h : m.cut cutting = .ok blocks) :
    blocks = [m.toDense] ∨ m = .blocks blocks ∨
    (∃ w, m = .whole w ∧ SymMatrix.splitBlocks w = .ok blocks) ∨
    ∃ parts lists, m = .blocks parts ∧ blocks = List.flatten lists ∧
      parts.mapM SymMatrix.splitBlocks = .ok lists := by
  cases cutting with
  | whole =>
    obtain ⟨d, hd, rfl⟩ := Except.map_eq_ok.1 h
    obtain ⟨-, rfl⟩ := BlockMatrix.toDense?_eq_ok_iff.1 (Except.mapError_eq_ok.1 hd)
    exact .inl rfl
  | carried =>
    cases m with
    | whole w => exact .inr (.inr (.inl ⟨w, rfl, Except.mapError_eq_ok.1 h⟩))
    | blocks parts =>
      cases h
      exact .inr (.inl rfl)
  | finest =>
    cases m with
    | whole w => exact .inr (.inr (.inl ⟨w, rfl, Except.mapError_eq_ok.1 h⟩))
    | blocks parts =>
      obtain ⟨lists, hlists, rfl⟩ := Except.map_eq_ok.1 (Except.mapError_eq_ok.1 h)
      exact .inr (.inr (.inr ⟨parts, lists, rfl, rfl, hlists⟩))

/-- However a matrix is cut, what it loses denotes zero. -/
theorem BlockMatrix.isCutInto_cut {m : BlockMatrix ℚ} (h : m.cut cutting = .ok blocks) :
    IsCutInto m.toDense blocks := by
  rcases cut_cases h with rfl | rfl | ⟨w, rfl, hsplit⟩ | ⟨parts, lists, rfl, rfl, hlists⟩
  · exact isCutInto_singleton _
  · exact isCutInto_parts blocks
  · exact isCutInto_splitBlocks hsplit
  · exact isCutInto_flatten
      ((Except.forall₂_of_mapM_eq_ok hlists).imp fun _ _ hsplit => isCutInto_splitBlocks hsplit)

theorem Lmi.canonicalBlocks_eq_ok {K : Type} [Scalar K] {l : Lmi K} {blocks : List (SymMatrix K)}
    (h : l.canonicalBlocks cutting = .ok blocks) :
    ∃ m, l.canonicalMatrix = .ok m ∧ m.cut cutting = .ok blocks := by
  unfold Lmi.canonicalBlocks at h
  rw [Except.bind_eq_ok] at h
  obtain ⟨m, hm, hcut⟩ := h
  exact ⟨m, Except.mapError_eq_ok.1 hm, hcut⟩

variable (x : Symbol → ℚ)

theorem Lmi.blockValues_canonicalBlocks {l : Lmi ℚ}
    (hchecked : Lmi.checkOperands l.lhs l.rhs = .ok ())
    (h : l.canonicalBlocks cutting = .ok blocks) :
    blockValues x blocks = l.differenceAt x := by
  obtain ⟨m, hm, hcut⟩ := Lmi.canonicalBlocks_eq_ok h
  rw [(BlockMatrix.isCutInto_cut hcut).blockValues_eq, Lmi.map_eval_canonicalMatrix hchecked hm]

theorem blockValues_canonicalBlocks {lmis : List (Lmi ℚ)}
    (hchecked : ∀ l ∈ lmis, Lmi.checkOperands l.lhs l.rhs = .ok ())
    (h : canonicalBlocks lmis cutting = .ok blocks) :
    blockValues x blocks = Grid.blockDiagonal 0 (lmis.map (Lmi.differenceAt x)) := by
  obtain ⟨lists, hlists, rfl⟩ := Except.map_eq_ok.1 h
  have hvalues : lists.map (blockValues x) = lmis.map (Lmi.differenceAt x) :=
    Except.map_of_mapM_eq_ok hlists fun l hl _ hblocks =>
      Lmi.blockValues_canonicalBlocks x (hchecked l hl) hblocks
  rw [blockValues_flatten, hvalues]

end Blocks

end Semidefinite
