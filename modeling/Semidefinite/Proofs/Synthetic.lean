import Semidefinite.Proofs.Cutting.Canonical
import Semidefinite.Proofs.Lmi.Rewriting
import Semidefinite.Proofs.Lmi.Symmetry
import Semidefinite.Proofs.Problem
import Semidefinite.Synthetic

/-!
# What synthetic problems are cut into

The weights of a variable run through the numbers from -2 to 2, so an entry off the
diagonal vanishes only where all variables come to their zero (`vanishes_entry_iff`).
Two variables never do so together, and of one variable two neighbouring entries never
do. What is left is a single pair of rows in a single variable: such a block falls
apart if its one entry off the diagonal vanishes, as it does in every fifth block
(`isCut_block_iff`). Every other block stays in one piece.
-/

namespace Semidefinite.Synthetic

/-! ## Entries -/

theorem weight_eq (block row col k : Nat) :
    (weight block row col k : ℚ) = ((row + col + k + block) % 5 : Nat) - 2 := by
  have hofInt : ∀ z : Int, (Scalar.ofInt z : ℚ) = z := by
    intro z
    cases z with
    | ofNat n => rfl
    | negSucc n => exact (Int.cast_negSucc n).symm
  unfold weight
  rw [hofInt]
  push_cast
  rfl

theorem weight_eq_zero_iff {block row col k : Nat} :
    (weight block row col k : ℚ) = 0 ↔ (row + col + k + block) % 5 = 2 := by
  rw [weight_eq, sub_eq_zero]
  exact_mod_cast Iff.rfl

theorem sum_map_filter {ι R : Type*} [AddMonoid R] {keep : ι → Bool} {f : ι → R} {items : List ι}
    (h : ∀ i ∈ items, keep i = false → f i = 0) :
    ((items.filter keep).map f).sum = (items.map f).sum := by
  induction items with
  | nil => rfl
  | cons i rest ih =>
    obtain ⟨hi, hrest⟩ := List.forall_mem_cons.1 h
    rw [List.filter_cons, List.map_cons, List.sum_cons, ← ih hrest]
    cases hkeep : keep i with
    | true => rw [if_pos rfl, List.map_cons, List.sum_cons]
    | false => rw [if_neg Bool.false_ne_true, hi hkeep, zero_add]

theorem sum_map_zipIdx {ι R : Type*} [AddCommMonoid R] (f : ι × Nat → R) (items : List ι) :
    (items.zipIdx.map f).sum = ∑ k : Fin items.length, f (items[k], k) := by
  rw [← List.sum_ofFn]
  exact congrArg List.sum (List.ext_getElem (by simp) fun k _ _ => by simp)

theorem eval_entry {R : Type*} [CommRing R] [Algebra ℚ R] {row col : Nat} (hne : row ≠ col)
    (x : Symbol → R) (xs : List Symbol) (block size : Nat) :
    Expr.eval x (entry xs block row col size) =
      ∑ k : Fin xs.length, algebraMap ℚ R (weight block row col k) * x xs[k] := by
  have hterms : ∀ items : List (ℚ × Symbol),
      ((items.filter fun p => p.1 != 0).map fun p => algebraMap ℚ R p.1 * x p.2).sum =
        (items.map fun p => algebraMap ℚ R p.1 * x p.2).sum := by
    intro items
    refine sum_map_filter fun p _ hp => ?_
    have hweight : p.1 = 0 := by simpa using hp
    rw [hweight, map_zero, zero_mul]
  calc Expr.eval x (entry xs block row col size)
      = (((xs.zipIdx.map fun p => ((weight block row col p.2 : ℚ), p.1)).filter
          fun p => p.1 != 0).map fun p => algebraMap ℚ R p.1 * x p.2).sum := by
        unfold entry
        rw [Expr.eval_sumOf, if_neg hne, List.map_cons, List.sum_cons, List.map_map, Expr.zero,
          Expr.eval_const, map_zero, zero_add]
        refine congrArg List.sum (List.map_congr_left fun p _ => ?_)
        exact (Expr.eval_mul x _ _).trans (by rw [Expr.eval_const, Expr.eval_symbol])
    _ = ∑ k : Fin xs.length, algebraMap ℚ R (weight block row col k) * x xs[k] := by
        rw [hterms, List.map_map, sum_map_zipIdx]
        rfl

theorem vanishes_iff {e : Expr ℚ} : SymMatrix.vanishes e = true ↔ e.poly = 0 := by
  refine ⟨SymMatrix.poly_of_vanishes, fun h => ?_⟩
  unfold SymMatrix.vanishes
  rw [Expr.isZero_expand_iff.2 h, Bool.or_true]

/-- An entry off the diagonal vanishes if every variable has weight zero. -/
theorem vanishes_entry_iff {xs : List Symbol} (hxs : xs.Nodup) {row col : Nat} (hne : row ≠ col)
    {block size : Nat} :
    SymMatrix.vanishes (entry xs block row col size : Expr ℚ) = true ↔
      ∀ k < xs.length, (row + col + k + block) % 5 = 2 := by
  rw [vanishes_iff]
  constructor
  · -- setting one variable to one and the others to zero reads its weight
    intro hpoly k hk
    have heval : Expr.eval (fun s => if s = xs[k] then (1 : ℚ) else 0)
        (entry xs block row col size) = 0 := by
      rw [← Expr.aeval_poly, hpoly, map_zero]
    rw [eval_entry hne, Finset.sum_eq_single ⟨k, hk⟩] at heval
    · simpa [weight_eq_zero_iff] using heval
    · intro i _ hi
      have hsymbol : xs[i] ≠ xs[k] := fun heq => hi (Fin.ext ((hxs.getElem_inj_iff).1 heq))
      rw [if_neg hsymbol, mul_zero]
    · exact fun hmem => absurd (Finset.mem_univ _) hmem
  · intro hweights
    refine (eval_entry hne _ xs block size).trans (Finset.sum_eq_zero fun k _ => ?_)
    rw [weight_eq_zero_iff.2 (hweights k k.isLt), map_zero, zero_mul]

theorem entry_comm {K : Type} [Scalar K] (xs : List Symbol) (block row col size : Nat) :
    (entry xs block row col size : Expr K) = entry xs block col row size := by
  unfold entry weight
  simp only [Nat.add_comm row col, eq_comm (a := row) (b := col)]

/-! ## Blocks -/

section Block
variable {xs : List Symbol} {index size : Nat}

theorem entry?_block {K : Type} [Scalar K] {i j : Nat} (hi : i < size) (hj : j < size) :
    Grid.entry? (block xs index size : SymMatrix K) i j = some (entry xs index i j size) :=
  Grid.entry?_tabulate _ ⟨hi, hj⟩

theorem isSymmetric_block (xs : List Symbol) (index size : Nat) :
    SymMatrix.IsSymmetric (block xs index size) := by
  refine ⟨rfl, fun i j => ?_⟩
  by_cases h : i < size ∧ j < size
  · unfold SymMatrix.polyAt
    rw [entry?_block h.1 h.2, entry?_block h.2 h.1, entry_comm]
  · rw [SymMatrix.polyAt_eq_zero h, SymMatrix.polyAt_eq_zero fun h' => h h'.symm]

/-- In one variable, the entry that couples a pair of rows has weight zero. -/
def Uncoupled (vars size index : Nat) : Prop :=
  vars = 1 ∧ size = 2 ∧ index % 5 = 1

instance (vars size index : Nat) : Decidable (Uncoupled vars size index) :=
  inferInstanceAs (Decidable (_ ∧ _ ∧ _))

theorem zeroAt_block (hxs : xs.Nodup) {i j : Nat} (hi : i < size) (hj : j < size) (hne : i ≠ j) :
    SymMatrix.zeroAt (block xs index size : SymMatrix ℚ) i j = true ↔
      ∀ k < xs.length, (i + j + k + index) % 5 = 2 := by
  unfold SymMatrix.zeroAt
  rw [entry?_block hi hj, Option.all_some, vanishes_entry_iff hxs hne]

/-- A block has a cut before its end only between the two rows of an uncoupled pair. -/
theorem isCut_block_iff (hxs : xs.Nodup) (hpos : 0 < xs.length) {b : Nat} (hb : b < size) :
    IsCut (SymMatrix.zeroAt (block xs index size : SymMatrix ℚ)) size b ↔
      b = 1 ∧ Uncoupled xs.length size index := by
  constructor
  · intro hcut
    have hb0 := hcut.pos
    have hzero : ∀ i j k, i < b → b ≤ j → j < size → k < xs.length →
        (i + j + k + index) % 5 = 2 := fun i j k hi hj hjn hk =>
      (zeroAt_block hxs (by omega) hjn (by omega)).1 (hcut.zeros i j hi hj hjn).1 k hk
    have hfirst := hzero (b - 1) b 0 (by omega) (by omega) hb hpos
    have hone : xs.length = 1 := by
      by_contra hmore
      have hsecond := hzero (b - 1) b 1 (by omega) (by omega) hb (by omega)
      omega
    have habove : b = 1 := by
      by_contra hmore
      have hearlier := hzero (b - 2) b 0 (by omega) (by omega) hb hpos
      omega
    have hbelow : size = 2 := by
      by_contra hmore
      have hlater := hzero (b - 1) (b + 1) 0 (by omega) (by omega) (by omega) hpos
      omega
    exact ⟨habove, hone, hbelow, by omega⟩
  · rintro ⟨rfl, hone, rfl, hindex⟩
    refine ⟨by omega, by omega, fun i j hi hj hjn => ?_⟩
    rw [zeroAt_block hxs (by omega) hjn (by omega), zeroAt_block hxs hjn (by omega) (by omega)]
    exact ⟨fun k hk => by omega, fun k hk => by omega⟩

theorem cuts_block (hxs : xs.Nodup) (hpos : 0 < xs.length) (hsize : 0 < size) :
    SymMatrix.cuts (block xs index size : SymMatrix ℚ) =
      if Uncoupled xs.length size index then [1, 2] else [size] := by
  have hlast : IsCut (SymMatrix.zeroAt (block xs index size : SymMatrix ℚ)) size size :=
    ⟨hsize, Nat.le_refl _, fun i j _ hj hjn => by omega⟩
  have hcut : ∀ b, IsCut (SymMatrix.zeroAt (block xs index size : SymMatrix ℚ)) size b ↔
      b = size ∨ b = 1 ∧ Uncoupled xs.length size index := by
    intro b
    constructor
    · intro hb
      rcases Nat.lt_or_eq_of_le hb.le with hlt | heq
      · exact .inr ((isCut_block_iff hxs hpos hlt).1 hb)
      · exact .inl heq
    · rintro (rfl | ⟨rfl, hapart⟩)
      · exact hlast
      · exact (isCut_block_iff hxs hpos (by rw [hapart.2.1]; omega)).2 ⟨rfl, hapart⟩
  split
  · rename_i hapart
    refine cuts_eq (by decide) fun b => ?_
    rw [show (block xs index size : SymMatrix ℚ).rows = size from rfl, hcut, and_iff_left hapart,
      hapart.2.1, List.mem_pair, or_comm]
  · rename_i htogether
    refine cuts_eq (List.pairwise_singleton _ _) fun b => ?_
    rw [show (block xs index size : SymMatrix ℚ).rows = size from rfl, hcut, List.mem_singleton]
    simp [htogether]

theorem pieces_block (hxs : xs.Nodup) (hpos : 0 < xs.length) (hsize : 0 < size)
    (htogether : ¬ Uncoupled xs.length size index) :
    SymMatrix.pieces (block xs index size : SymMatrix ℚ) = [block xs index size] := by
  unfold SymMatrix.pieces
  rw [cuts_block hxs hpos hsize, if_neg htogether]
  exact congrArg (fun b => [b]) (Grid.diagonalWindow_self _ rfl)

theorem rows_pieces_block (hxs : xs.Nodup) (hpos : 0 < xs.length) (hsize : 0 < size) :
    (SymMatrix.pieces (block xs index size : SymMatrix ℚ)).map Grid.rows =
      if Uncoupled xs.length size index then [1, 1] else [size] := by
  unfold SymMatrix.pieces
  rw [cuts_block hxs hpos hsize]
  split <;> rfl

end Block

/-! ## Problems -/

theorem length_vars (count : Nat) : (vars count).length = count := by
  rw [vars, List.length_map, List.length_range]

theorem nodup_vars (count : Nat) : (vars count).Nodup := by
  refine List.nodup_range.map fun k l hkl => ?_
  have hname : "x" ++ Nat.repr k = "x" ++ Nat.repr l := congrArg Symbol.name hkl
  exact Nat.repr_injective (String.append_right_inj _ |>.1 hname)

variable {s : Shape}

theorem map_rows_blocks (s : Shape) (xs : List Symbol) :
    ((List.range s.blocks).map fun index => (block xs index s.blockSize : SymMatrix ℚ)).map
      Grid.rows = List.replicate s.blocks s.blockSize := by
  rw [List.map_map]
  exact List.map_const'.trans (by rw [List.length_range])

theorem isSymmetric_matrix (s : Shape) (xs : List Symbol) :
    SymMatrix.IsSymmetric (matrix s xs) := by
  refine SymMatrix.isSymmetric_blockDiagonal fun b hb => ?_
  obtain ⟨index, -, rfl⟩ := List.mem_map.1 hb
  exact isSymmetric_block xs index s.blockSize

theorem shape_matrix (s : Shape) (xs : List Symbol) :
    Grid.shape (matrix s xs : SymMatrix ℚ) = (s.dimension, s.dimension) := by
  have hrows : Grid.rows (matrix s xs : SymMatrix ℚ) = s.dimension := by
    unfold matrix SymMatrix.blockDiagonal
    rw [Grid.rows_blockDiagonal, map_rows_blocks, List.sum_replicate, smul_eq_mul, Shape.dimension]
  exact Prod.ext hrows ((isSymmetric_matrix s xs).square.symm.trans hrows)

theorem pieces_matrix (s : Shape) (xs : List Symbol) :
    SymMatrix.pieces (matrix s xs : SymMatrix ℚ) =
      (List.range s.blocks).flatMap fun index => SymMatrix.pieces (block xs index s.blockSize) := by
  unfold matrix
  rw [SymMatrix.pieces_blockDiagonal, List.flatMap_map]
  intro b hb
  obtain ⟨index, -, rfl⟩ := List.mem_map.1 hb
  rfl

def inequality (s : Shape) : Lmi ℚ :=
  ⟨.matrix (.whole (matrix s (vars s.vars))), .zero, .psd⟩

theorem problem_eq (s : Shape) :
    problem s = .ok ⟨Expr.sumOf ((vars s.vars).map .symbol), [inequality s], vars s.vars⟩ := by
  have hlmi : Lmi.ofMatrix (.whole (matrix s (vars s.vars))) = .ok (inequality s) :=
    Lmi.make_of_checked (l := inequality s) rfl fun _ =>
      ⟨SymMatrix.isSymmetric_iff.2 (isSymmetric_matrix s (vars s.vars)), rfl⟩
  unfold problem
  dsimp only
  rw [hlmi]
  exact Problem.make_of_nodup (nodup_vars s.vars) _ _

theorem canonicalBlocks_inequality (s : Shape) :
    canonicalBlocks [inequality s] .finest =
      .ok (SymMatrix.pieces (matrix s (vars s.vars))) := by
  have hmatrix : (inequality s).canonicalMatrix = .ok (.whole (matrix s (vars s.vars))) :=
    Lmi.canonicalMatrix_mk rfl
  have hsplit : BlockMatrix.cut .finest (.whole (matrix s (vars s.vars))) =
      .ok (SymMatrix.pieces (matrix s (vars s.vars))) :=
    Except.mapError_eq_ok.2 (SymMatrix.splitBlocks_of_square (isSymmetric_matrix s _).square)
  unfold canonicalBlocks
  rw [List.mapM_cons, Lmi.canonicalBlocks_of_matrix hmatrix, hsplit]
  show Except.ok [_].flatten = _
  rw [List.flatten_singleton]

/-- There is a second block, and it is an uncoupled pair. -/
def Shape.FallsApart (s : Shape) : Prop :=
  s.vars = 1 ∧ s.blockSize = 2 ∧ 2 ≤ s.blocks

theorem fallsApart_iff :
    s.FallsApart ↔ ∃ index < s.blocks, Uncoupled s.vars s.blockSize index := by
  constructor
  · rintro ⟨hone, hpair, hmany⟩
    exact ⟨1, hmany, hone, hpair, rfl⟩
  · rintro ⟨index, hindex, hone, hpair, hresidue⟩
    exact ⟨hone, hpair, by omega⟩

section Pieces
variable (hsize : 0 < s.blockSize) (hvars : 0 < s.vars)
include hsize hvars

theorem rows_pieces_matrix :
    (SymMatrix.pieces (matrix s (vars s.vars) : SymMatrix ℚ)).map Grid.rows =
      (List.range s.blocks).flatMap fun index =>
        if Uncoupled s.vars s.blockSize index then [1, 1] else [s.blockSize] := by
  have hlength := length_vars s.vars
  rw [pieces_matrix, List.map_flatMap]
  refine congrArg List.flatten (List.map_congr_left fun index _ => ?_)
  rw [rows_pieces_block (nodup_vars s.vars) (by omega) hsize, hlength]

theorem pieces_eq_blocks (htogether : ¬ s.FallsApart) :
    SymMatrix.pieces (matrix s (vars s.vars) : SymMatrix ℚ) =
      (List.range s.blocks).map fun index => block (vars s.vars) index s.blockSize := by
  have hlength := length_vars s.vars
  rw [pieces_matrix, List.map_eq_flatMap]
  refine congrArg List.flatten (List.map_congr_left fun index hindex => ?_)
  refine pieces_block (nodup_vars s.vars) (by omega) hsize fun hapart => htogether ?_
  exact fallsApart_iff.2 ⟨index, List.mem_range.1 hindex, hlength ▸ hapart⟩

theorem rows_pieces_eq_iff :
    (SymMatrix.pieces (matrix s (vars s.vars) : SymMatrix ℚ)).map Grid.rows =
      List.replicate s.blocks s.blockSize ↔ ¬ s.FallsApart := by
  constructor
  · intro hrows hapart
    obtain ⟨index, hindex, huncoupled⟩ := fallsApart_iff.1 hapart
    have hone : 1 ∈ List.replicate s.blocks s.blockSize := by
      rw [← hrows, rows_pieces_matrix hsize hvars, List.mem_flatMap]
      exact ⟨index, List.mem_range.2 hindex, by rw [if_pos huncoupled]; exact List.mem_cons_self⟩
    have hpair := hapart.2.1
    have := List.eq_of_mem_replicate hone
    omega
  · intro htogether
    rw [pieces_eq_blocks hsize hvars htogether, map_rows_blocks]

end Pieces

end Semidefinite.Synthetic
