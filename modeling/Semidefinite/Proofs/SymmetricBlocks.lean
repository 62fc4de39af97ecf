import Semidefinite.Proofs.Cutting.Modes
import Semidefinite.Proofs.Export.Numbers
import Semidefinite.Proofs.Export.SparseRoundTrip
import Semidefinite.Proofs.Lmi.Construction
import Semidefinite.Proofs.Storage.Backends

/-!
# Lowered matrices are symmetric

However symmetric matrices are cut, the blocks are symmetric as matrices of
polynomials (`isSymmetric_of_mem_canonicalBlocks`). A pencil is made of the
coefficients of those polynomials, so two entries that mirror each other have the
same numbers even if one is read as written and the other multiplied out. The upper
triangles are then all there is to the matrices, and a sparse file describes them
(`lowerBlocks_symmetric`).
-/

namespace Semidefinite

/-! ## Cutting symmetric matrices -/

namespace SymMatrix

variable {m b : SymMatrix ℚ}

theorem IsSymmetric.diagonalWindow (h : m.IsSymmetric) (start stop : Nat) :
    IsSymmetric (Grid.diagonalWindow Expr.zero m start stop) := by
  have hread : ∀ {i j : Nat}, i < stop - start ∧ j < stop - start →
      polyAt (Grid.diagonalWindow Expr.zero m start stop) i j =
        m.polyAt (start + i) (start + j) := by
    intro i j hij
    rw [polyAt, Grid.diagonalWindow, Grid.entry?_tabulate _ hij, Option.getD_some, polyAt]
  refine ⟨rfl, fun i j => ?_⟩
  by_cases hij : i < stop - start ∧ j < stop - start
  · rw [hread hij, hread hij.symm, h.mirrored]
  · rw [polyAt_eq_zero hij, polyAt_eq_zero fun hji => hij hji.symm]

theorem IsSymmetric.of_mem_cutAt (h : m.IsSymmetric) {start : Nat} {ends : List Nat}
    (hb : b ∈ Grid.cutAt Expr.zero m start ends) : b.IsSymmetric := by
  induction ends generalizing start with
  | nil => cases hb
  | cons stop rest ih =>
    rcases List.mem_cons.1 hb with rfl | hb
    · exact h.diagonalWindow start stop
    · exact ih hb

theorem IsSymmetric.of_mem_splitBlocks (h : m.IsSymmetric) {blocks : List (SymMatrix ℚ)}
    (hsplit : m.splitBlocks = .ok blocks) (hb : b ∈ blocks) : b.IsSymmetric := by
  obtain ⟨ends, -, rfl⟩ := Except.map_eq_ok.1 hsplit
  exact h.of_mem_cutAt hb

end SymMatrix

section Cut
variable {cutting : Cutting} {blocks : List (SymMatrix ℚ)} {b : SymMatrix ℚ}

theorem BlockMatrix.isSymmetric_of_mem_cut {m : BlockMatrix ℚ} (hm : m.isSymmetric = true)
    (h : m.cut cutting = .ok blocks) (hb : b ∈ blocks) : b.IsSymmetric := by
  rcases cut_cases h with rfl | rfl | ⟨w, rfl, hsplit⟩ | ⟨parts, lists, rfl, rfl, hlists⟩
  · rw [List.mem_singleton.1 hb]
    exact isSymmetric_toDense hm
  · exact isSymmetric_blocks.1 hm b hb
  · exact (SymMatrix.isSymmetric_iff.1 hm).of_mem_splitBlocks hsplit hb
  · obtain ⟨list, hlist, hb⟩ := List.mem_flatten.1 hb
    obtain ⟨p, hp, hsplit⟩ := exists_of_mem_right (Except.forall₂_of_mapM_eq_ok hlists) hlist
    exact (isSymmetric_blocks.1 hm p hp).of_mem_splitBlocks hsplit hb

theorem isSymmetric_of_mem_canonicalBlocks {lmis : List (Lmi ℚ)}
    (hlmis : ∀ l ∈ lmis, ∃ lhs rhs kind, Lmi.make lhs rhs kind true = .ok l)
    (h : canonicalBlocks lmis cutting = .ok blocks) (hb : b ∈ blocks) : b.IsSymmetric := by
  obtain ⟨lists, hlists, rfl⟩ := Except.map_eq_ok.1 h
  obtain ⟨own, hown, hb⟩ := List.mem_flatten.1 hb
  obtain ⟨l, hl, hblocks⟩ := exists_of_mem_right (Except.forall₂_of_mapM_eq_ok hlists) hown
  obtain ⟨lhs, rhs, kind, hmake⟩ := hlmis l hl
  obtain ⟨m, hm, hcut⟩ := Lmi.canonicalBlocks_eq_ok hblocks
  have hsymmetric := Lmi.isSymmetric_canonicalMatrix (Lmi.isSymmetric_of_make hmake rfl) hm
  exact BlockMatrix.isSymmetric_of_mem_cut hsymmetric hcut hb

end Cut

/-! ## Numbers of symmetric matrices -/

theorem SymMatrix.IsSymmetric.transpose_map {α : Type} {m : SymMatrix ℚ} (h : m.IsSymmetric)
    (f : MvPolynomial Symbol ℚ → α) :
    (Grid.map (fun e : Expr ℚ => f e.poly) m).transpose = Grid.map (fun e => f e.poly) m := by
  have hmap : Grid.map (fun e : Expr ℚ => f e.poly) m = m.polys.map f :=
    (Grid.map_map Expr.poly f m).symm
  rw [hmap, Grid.transpose_map, (isSymmetric_iff_transpose.1 h).2]

section Pencils
variable {S : Type → Type} [Storage S]

theorem Storage.value_comm {m : S ℚ} {n : Nat} (hshape : shape m = (n, n))
    (h : (grid m).transpose = grid m) {i j : Nat} (hi : i < n) (hj : j < n) :
    value m i j = value m j i := by
  have hin : i < (shape m).1 ∧ j < (shape m).2 := by
    rw [hshape]
    exact ⟨hi, hj⟩
  have hin' : j < (shape m).1 ∧ i < (shape m).2 := by
    rw [hshape]
    exact ⟨hj, hi⟩
  have hread := (Grid.transpose_eq_iff.1 h).2 i j
  rw [grid, Grid.entry?_tabulate _ hin, Grid.entry?_tabulate _ hin'] at hread
  exact Option.some.inj hread

/-- The matrices of a pencil are symmetric if its entries are, as polynomials. -/
theorem Pencil.transpose_of_extract [FaithfulStorage S ℚ] {m : SymMatrix ℚ} {vars : List Symbol}
    {supply after : NonceSupply} {pencil : Pencil S ℚ} (hm : m.IsSymmetric)
    (hfresh : m.IsFresh vars supply) (hkeys : m.KeysFaithful)
    (h : (extract S m vars).run supply = (.ok pencil, after)) {M : S ℚ} (hM : M ∈ pencil.matrices) :
    (Storage.grid M).transpose = Storage.grid M := by
  obtain ⟨hconstant, hcoefficients⟩ := grids_of_extract hfresh hkeys h
  obtain ⟨⟨hcount, -⟩, -⟩ := extract_eq_ok hfresh hkeys h
  rcases List.mem_cons.1 hM with rfl | hM
  · rw [hconstant]
    exact hm.transpose_map (MvPolynomial.coeff 0)
  · obtain ⟨k, hk, rfl⟩ := List.getElem_of_mem hM
    have hcoefficient := hcoefficients k (hcount ▸ hk)
    rw [List.getElem?_eq_getElem hk, Option.map_some, Option.some.injEq] at hcoefficient
    rw [hcoefficient]
    exact hm.transpose_map (MvPolynomial.coeff _)

end Pencils

/-- Every block of inequalities whose symmetry was checked is lowered to square matrices, each its
own transpose, so a sparse file, which has their upper triangles only, describes them: put back
together with their mirror images, its entries are the matrices. That the nonces are fresh holds as
long as the serial numbers have not started again (`freshNonces_of_drawn`). -/
theorem lowerBlocks_symmetric (lmis : List (Lmi ℚ))
    (hlmis : ∀ l ∈ lmis, ∃ lhs rhs kind, Lmi.make lhs rhs kind true = .ok l)
    (vars : List Symbol) (cutting : Cutting) (backend : Backend) (supply after : NonceSupply)
    (hfresh : FreshNonces lmis vars cutting supply)
    (hkeys : ∀ blocks, canonicalBlocks lmis cutting = .ok blocks → ∀ m ∈ blocks,
      SymMatrix.KeysFaithful m)
    (pencils : List (Pencil backend.Store ℚ))
    (hlowered : (lowerBlocks backend.Store lmis vars cutting).run supply = (.ok pencils, after)) :
    (∀ pencil ∈ pencils, pencil.shape.1 = pencil.shape.2 ∧
      pencil.coefficients.length = vars.length ∧
      ∀ m ∈ pencil.matrices, Storage.shape m = pencil.shape ∧
        (Storage.grid m).transpose = Storage.grid m) ∧
    ∀ objective : List ℚ, objective.length = vars.length →
      let p : NumericProblem backend.Store ℚ := ⟨objective, pencils⟩
      Sdpa.renderSparse p none =
        .ok (Text.unlines (Sdpa.headerLines p ++ (Sdpa.entries p).map Sdpa.Entry.line)) ∧
      Sdpa.SparseFile.Describes ⟨objective, p.blockSizes, Sdpa.entries p⟩ p := by
  obtain ⟨own, -, hlisted⟩ := lists_of_lowerBlocks hlowered
  obtain ⟨blocks, hblocks, hpencils⟩ := lowerBlocks_eq_ok hlowered
  have hsymmetric : ∀ pencil ∈ pencils, pencil.shape.1 = pencil.shape.2 ∧
      ∀ m ∈ pencil.matrices, (Storage.grid m).transpose = Storage.grid m := by
    intro pencil hpencil
    obtain ⟨b, hb, -, k, between, hk, hextract⟩ := exists_of_mem_right hpencils hpencil
    have hfreshBlock := hfresh.isFresh hblocks hb hk
    have hkeysBlock := hkeys blocks hblocks b hb
    have hbSymmetric := isSymmetric_of_mem_canonicalBlocks hlmis hblocks hb
    obtain ⟨-, hshape, -⟩ := Pencil.extract_eq_ok hfreshBlock hkeysBlock hextract
    refine ⟨?_, fun m hm =>
      Pencil.transpose_of_extract hbSymmetric hfreshBlock hkeysBlock hextract hm⟩
    rw [hshape]
    exact hbSymmetric.square
  have hmatrices : ∀ pencil ∈ pencils, pencil.coefficients.length = vars.length ∧
      ∀ m ∈ pencil.matrices, Storage.shape m = pencil.shape ∧ Storage.Lists m := by
    intro pencil hpencil
    obtain ⟨-, -, -, hlists⟩ := exists_of_mem_right hlisted hpencil
    exact hlists
  refine ⟨fun pencil hpencil => ?_, fun objective hlength => ?_⟩
  · obtain ⟨hsquare, htranspose⟩ := hsymmetric pencil hpencil
    obtain ⟨hcount, hlists⟩ := hmatrices pencil hpencil
    exact ⟨hsquare, hcount, fun m hm => ⟨(hlists m hm).1, htranspose m hm⟩⟩
  · intro p
    have hcomplete : p.IsComplete := fun pencil hpencil =>
      (hmatrices pencil hpencil).1.trans hlength.symm
    have hshapes : ∀ pencil ∈ p.blocks, ∀ m ∈ pencil.matrices,
        Storage.shape m = (pencil.shape.1, pencil.shape.1) := by
      intro pencil hpencil m hm
      rw [((hmatrices pencil hpencil).2 m hm).1]
      exact Prod.ext rfl (hsymmetric pencil hpencil).1.symm
    have hmirrored : p.IsSymmetric := fun pencil hpencil m hm i j hi hj =>
      .inl (Storage.value_comm (hshapes pencil hpencil m hm)
        ((hsymmetric pencil hpencil).2 m hm) hi hj)
    exact ⟨congrArg (Text.unlines <$> ·) (Sdpa.sparseLines_eq_ok hcomplete none),
      Sdpa.describes_entries_of_lists hcomplete
        (fun pencil hpencil m hm => ((hmatrices pencil hpencil).2 m hm).2) hshapes hmirrored⟩

/-- `diag(1, 2, x) ≻ m`, where `m` has `2 * (x + 1)` above the diagonal, which is multiplied out,
and `2 * x + 2` below, which is read as written. Nothing is coupled with its last row, so there are two
blocks. -/
theorem lowerBlocks_symmetric_of_unlike_entries :
    let x : Symbol := { name := "x" }
    let y : Symbol := { name := "y" }
    let m : SymMatrix ℚ := Grid.tabulate 3 3 fun i j =>
      if i.val = 0 ∧ j.val = 1 then .product [.const 2, .sum [.symbol x, .const 1]]
      else if i.val = 1 ∧ j.val = 0 then .sum [.product [.const 2, .symbol x], .const 2]
      else if i = j then .symbol y
      else .sum [.symbol y, .product [.const (-1), .symbol y]]
    let bounds : BlockMatrix ℚ :=
      .blocks [SymMatrix.diagonal [.const 1, .const 2], SymMatrix.diagonal [.symbol x]]
    let lmis : List (Lmi ℚ) := [⟨.matrix (.whole m), .matrix bounds, .nd⟩]
    let supply := NonceSupply.first
    (∀ l ∈ lmis, ∃ lhs rhs kind, Lmi.make lhs rhs kind true = .ok l) ∧
    FreshNonces lmis [x, y] .finest supply ∧
    (∀ blocks, canonicalBlocks lmis .finest = .ok blocks → ∀ m ∈ blocks,
      SymMatrix.KeysFaithful m) ∧
    ∃ (pencils : List (Pencil Backend.triplets.Store ℚ)) (after : NonceSupply),
      (lowerBlocks Backend.triplets.Store lmis [x, y] .finest).run supply = (.ok pencils, after) ∧
      pencils.length = 2 ∧
      (∀ pencil ∈ pencils, pencil.shape.1 = pencil.shape.2 ∧
        ∀ m ∈ pencil.matrices, (Storage.grid m).transpose = Storage.grid m) ∧
      Sdpa.SparseFile.Describes
        ⟨[1, -1], pencils.map fun pencil => pencil.shape.1, Sdpa.entries ⟨[1, -1], pencils⟩⟩
        ⟨[1, -1], pencils⟩ := by
  intro x y m bounds lmis supply
  have hsymmetric : ∀ l ∈ lmis, l.lhs.isSymmetric = true ∧ l.rhs.isSymmetric = true := by
    decide +kernel
  have hoperands : ∀ l ∈ lmis, Lmi.checkOperands l.lhs l.rhs = .ok () :=
    List.forall_mem_singleton.2 rfl
  have hlmis : ∀ l ∈ lmis, ∃ lhs rhs kind, Lmi.make lhs rhs kind true = .ok l :=
    Lmi.built_of_checked hoperands hsymmetric
  have hfresh : FreshNonces lmis [x, y] .finest supply :=
    freshNonces_of_named (by decide +kernel)
  have hkeys : ∀ blocks, canonicalBlocks lmis .finest = .ok blocks → ∀ m ∈ blocks,
      SymMatrix.KeysFaithful m := by
    have hnodup : ∀ blocks ∈ (canonicalBlocks lmis .finest).toOption, ∀ m ∈ blocks,
        ∀ e ∈ m.entries.toList, (e.summands.map Expr.key).Nodup := by
      decide +kernel
    intro blocks hblocks m hm
    exact SymMatrix.keysFaithful_of_nodup (hnodup blocks (by rw [hblocks]; rfl) m hm)
  have hcount : ((lowerBlocks Backend.triplets.Store lmis [x, y] .finest).run
      supply).1.toOption.map List.length = some 2 := by
    decide +kernel
  cases hlowered : (lowerBlocks Backend.triplets.Store lmis [x, y] .finest).run supply with
  | mk result after =>
    rw [hlowered] at hcount
    cases result with
    | error failure => cases hcount
    | ok pencils =>
      obtain ⟨hmatrices, hfile⟩ := lowerBlocks_symmetric lmis hlmis [x, y] .finest .triplets supply
        after hfresh hkeys pencils hlowered
      refine ⟨hlmis, hfresh, hkeys, pencils, after, rfl, Option.some.inj hcount,
        fun pencil hpencil => ?_, (hfile [1, -1] rfl).2⟩
      obtain ⟨hsquare, -, htranspose⟩ := hmatrices pencil hpencil
      exact ⟨hsquare, fun m hm => (htranspose m hm).2⟩

end Semidefinite
