import Semidefinite.Proofs.Cutting.Canonical

/-!
# Carried blocks are only a representation

An inequality whose sides carry square blocks has the blocks that it has with its
sides written out (`canonicalBlocks_dense`), whether the canonical matrix is left
whole or cut finely: the cuts of blocks along the diagonal are those of each
block, whatever the blocks of the two sides are.
-/

namespace Semidefinite

variable {K : Type} [Scalar K]

theorem BlockMatrix.cut_toDense [LawfulZero K] {m : BlockMatrix K} (hm : m.CarriesSquares)
    {cutting : Cutting} (hcutting : cutting = .whole ∨ cutting = .finest) :
    m.cut cutting = (whole m.toDense).cut cutting := by
  rcases hcutting with rfl | rfl
  · exact cut_whole_of_hasRoom hm.hasRoom
  · cases m with
    | whole w => rfl
    | blocks parts =>
      exact congrArg (Except.mapError Failure.error)
        (SymMatrix.splitBlocks_blockDiagonal (hm parts rfl)).symm

/-- The inequality with its sides written out is one. -/
theorem Lmi.make_dense {l : Lmi K} (hchecked : checkOperands l.lhs l.rhs = .ok ()) :
    make l.lhs.dense l.rhs.dense l.kind false = .ok l.dense := by
  refine make_of_checked (l := l.dense) ?_ (fun h => nomatch h)
  unfold dense
  rcases checkOperands_eq_ok hchecked with ⟨a, b, ha, hb, hshape⟩ | ⟨a, ha, hb⟩ | ⟨b, ha, hb⟩ <;>
    rw [ha, hb]
  · exact if_pos (BlockMatrix.shape_toDense_congr hshape)
  · rfl
  · rfl

/-- Whether the sides of an inequality carry blocks makes no difference to the blocks of its
canonical matrix. There are such blocks if the matrix is left whole, and if a side carries
blocks. -/
theorem canonicalBlocks_dense [LawfulZero K] (lhs rhs : Operand K) (kind : Kind) (check : Bool)
    (l : Lmi K) (hmake : Lmi.make lhs rhs kind check = .ok l)
    (hsquare : ∀ parts, lhs = .matrix (.blocks parts) ∨ rhs = .matrix (.blocks parts) →
      ∀ p ∈ parts, Grid.rows p = Grid.cols p)
    (cutting : Cutting) (hcutting : cutting = .whole ∨ cutting = .finest) :
    Lmi.make lhs.dense rhs.dense kind false = .ok l.dense ∧
    canonicalBlocks [l] cutting = canonicalBlocks [l.dense] cutting ∧
    (cutting = .whole ∨
        (∃ parts, lhs = .matrix (.blocks parts) ∨ rhs = .matrix (.blocks parts)) →
      ∃ blocks, canonicalBlocks [l] cutting = .ok blocks) := by
  obtain ⟨rfl, hchecked⟩ := Lmi.make_eq_ok hmake
  have hsides : ∀ s, Lmi.IsSide ⟨lhs, rhs, kind⟩ s → s.CarriesSquares := by
    rintro s hs parts rfl
    exact hsquare parts hs
  have hroom := Lmi.hasRoom_of_sides fun s hs => (hsides s hs).hasRoom
  obtain ⟨m, hm, hdense, hshape, hcarried, -⟩ := Lmi.exists_canonicalMatrix hchecked hroom
  have hcut := BlockMatrix.cut_toDense (hcarried hsides) hcutting
  have hlist : [⟨lhs, rhs, kind⟩].mapM Lmi.canonicalMatrix = .ok [m] :=
    Except.mapM_eq_ok_of_forall₂ (.cons hm .nil)
  have hlistDense : [(Lmi.dense ⟨lhs, rhs, kind⟩)].mapM Lmi.canonicalMatrix =
      .ok [.whole m.toDense] := Except.mapM_eq_ok_of_forall₂ (.cons hdense .nil)
  refine ⟨Lmi.make_dense (l := ⟨lhs, rhs, kind⟩) hchecked, ?_, fun hsome => ?_⟩
  · rw [canonicalBlocks_of_matrices hlist, canonicalBlocks_of_matrices hlistDense,
      List.mapM_cons, List.mapM_cons, hcut]
  · rw [canonicalBlocks_of_matrices hlist]
    rcases hsome with rfl | ⟨parts, hparts⟩
    · rw [List.mapM_cons, BlockMatrix.cut_whole_of_hasRoom (hcarried hsides).hasRoom]
      exact ⟨[m.toDense], rfl⟩
    · -- a side that carries square blocks is square, and so is the canonical matrix
      have hblocks : (BlockMatrix.blocks parts).IsSquare :=
        BlockMatrix.CarriesSquares.isSquare (hsides _ hparts)
      have hmsquare : m.IsSquare := by
        refine ⟨?_, hcarried hsides⟩
        rw [hshape _ hparts]
        exact hblocks.shape
      rw [← canonicalBlocks_of_matrices hlist]
      exact exists_canonicalBlocks hlist (List.forall_mem_singleton.2 hmsquare) cutting

/-- On doubles, `diag(x, 1) ≺ diag(y, 1)` with blocks of different sizes on the two sides, empty
ones among them. -/
theorem canonicalBlocks_dense_of_unlike_layouts :
    let x : Symbol := { name := "x" }
    let y : Symbol := { name := "y" }
    let lhs : Operand Float :=
      .matrix (.blocks [SymMatrix.diagonal [.symbol x, .const 1], SymMatrix.diagonal []])
    let rhs : Operand Float := .matrix (.blocks [SymMatrix.diagonal [.symbol y],
      SymMatrix.diagonal [], SymMatrix.diagonal [.const 1]])
    let l : Lmi Float := ⟨lhs, rhs, .nd⟩
    Lmi.make lhs rhs .nd false = .ok l ∧
    (∀ parts, lhs = .matrix (.blocks parts) ∨ rhs = .matrix (.blocks parts) →
      ∀ p ∈ parts, Grid.rows p = Grid.cols p) ∧
    Lmi.make lhs.dense rhs.dense .nd false = .ok l.dense ∧
    canonicalBlocks [l] .finest = canonicalBlocks [l.dense] .finest ∧
    ∃ blocks, canonicalBlocks [l] .finest = .ok blocks := by
  intro x y lhs rhs l
  have hmake : Lmi.make lhs rhs .nd false = .ok l :=
    Lmi.make_of_checked (l := l) rfl fun h => nomatch h
  have hsquare : ∀ parts, lhs = .matrix (.blocks parts) ∨ rhs = .matrix (.blocks parts) →
      ∀ p ∈ parts, Grid.rows p = Grid.cols p := by
    rintro parts (h | h)
    · rw [← BlockMatrix.blocks.inj (Operand.matrix.inj h)]
      decide
    · rw [← BlockMatrix.blocks.inj (Operand.matrix.inj h)]
      decide
  obtain ⟨hdense, hblocks, hsucceeds⟩ :=
    canonicalBlocks_dense lhs rhs .nd false l hmake hsquare .finest (.inr rfl)
  exact ⟨hmake, hsquare, hdense, hblocks, hsucceeds (.inr ⟨_, .inl rfl⟩)⟩

end Semidefinite
