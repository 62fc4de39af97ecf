import Semidefinite.Export.Sdpa
import Semidefinite.Proofs.Lowering
import Semidefinite.Proofs.Storage.Listing

/-!
# The entries of a sparse file

After its header a sparse file has one line for each entry of `Sdpa.entries`
(`sparseLines_eq_ok`), matrix after matrix and block after block. What an entry says
is read off the listing of one matrix (`mem_entries`), and the entries are in
lexicographic order because each listing is (`entries_precede`).
-/

namespace Semidefinite

open Storage

variable {K : Type} [Scalar K] {S : Type → Type}

/-- The constant, which is matrix zero, and the coefficients of the variables in order. -/
def Pencil.matrices (p : Pencil S K) : List (S K) :=
  p.constant :: p.coefficients

/-- There is one coefficient matrix per variable in every block. -/
def NumericProblem.IsComplete (p : NumericProblem S K) : Prop :=
  ∀ block ∈ p.blocks, block.coefficients.length = p.variableCount

omit [Scalar K] in
theorem NumericProblem.IsComplete.exists_matrix {p : NumericProblem S K} (h : p.IsComplete)
    {block : Pencil S K} (hblock : block ∈ p.blocks) {x : Nat} (hx : x ≤ p.variableCount) :
    ∃ m, block.matrices[x]? = some m := by
  have hlength : x < block.matrices.length := by
    rw [Pencil.matrices, List.length_cons, h block hblock]
    omega
  exact ⟨_, List.getElem?_eq_getElem hlength⟩

namespace Sdpa

/-- What a line says: the numbers of a matrix and a block, row and column from one, and a value. -/
structure Entry (K : Type) where
  matrix : Nat
  block : Nat
  row : Nat
  col : Nat
  value : K

namespace Entry

def line (e : Entry K) : String :=
  " ".intercalate
    [Nat.repr e.matrix, Nat.repr e.block, Nat.repr e.row, Nat.repr e.col, Scalar.fileText e.value]

def position (e : Entry K) : Nat × Nat × Nat × Nat :=
  (e.matrix, e.block, e.row, e.col)

def Precedes (e f : Entry K) : Prop :=
  e.matrix < f.matrix ∨ e.matrix = f.matrix ∧ (e.block < f.block ∨ e.block = f.block ∧
    (e.row < f.row ∨ e.row = f.row ∧ e.col < f.col))

/-- The entry lies in one of `ndim + 1` matrices, in a block of the given sizes and there on or
above the diagonal. -/
structure InRange (ndim : Nat) (sizes : List Nat) (e : Entry K) : Prop where
  matrix : 0 ≤ e.matrix ∧ e.matrix ≤ ndim
  block : 1 ≤ e.block ∧ e.block ≤ sizes.length
  cell : ∃ n, sizes[e.block - 1]? = some n ∧ 1 ≤ e.row ∧ e.row ≤ e.col ∧ e.col ≤ n

def ofListed (matrix block : Nat) (p : Cell × K) : Entry K :=
  ⟨matrix, block, p.1.row + 1, p.1.col + 1, p.2⟩

end Entry

/-- A value of matrix `x` as the file has it: the constant is negated. -/
def signed (x : Nat) (v : K) : K :=
  if x = 0 then -v else v

section Entries
variable [Storage S]

def matrixEntries (x block : Nat) (m : S K) : List (Entry K) :=
  (upperEntries m).map fun (cell, v) => Entry.ofListed x block (cell, signed x v)

def blockEntries (p : NumericProblem S K) (x : Nat) : List (Entry K) :=
  p.blocks.zipIdx.flatMap fun (block, b) =>
    block.matrices[x]?.toList.flatMap (matrixEntries x (b + 1))

def entries (p : NumericProblem S K) : List (Entry K) :=
  (List.range (p.variableCount + 1)).flatMap (blockEntries p)

/-! ## Lines -/

theorem constantLines_eq_map (p : NumericProblem S K) :
    constantLines p = (blockEntries p 0).map Entry.line := by
  unfold constantLines blockEntries
  rw [List.map_flatMap]
  refine List.flatMap_congr fun (block, b) _ => ?_
  simp only [Pencil.matrices, List.getElem?_cons_zero, Option.toList_some, List.flatMap_singleton,
    matrixEntries, List.map_map]
  rfl

theorem elementAt_eq_ok {α : Type} {items : List α} {index : Nat} {a : α} :
    elementAt items index = .ok a ↔ items[index]? = some a := by
  unfold elementAt
  cases items[index]? <;> simp

theorem coefficientLines_eq_ok {p : NumericProblem S K} (h : p.IsComplete) {k : Nat}
    (hk : k < p.variableCount) :
    coefficientLines p k = .ok ((blockEntries p (k + 1)).map Entry.line) := by
  unfold coefficientLines blockEntries
  rw [List.map_flatMap, List.flatMap_def]
  refine Except.map_eq_ok.2 ⟨_, Except.mapM_eq_ok_of_forall₂ ?_, rfl⟩
  rw [List.forall₂_map_right_iff, List.forall₂_same]
  intro (block, b) hblock
  obtain ⟨m, hm⟩ := h.exists_matrix (x := k + 1) (List.fst_mem_of_mem_zipIdx hblock) hk
  have hcoefficient : elementAt block.coefficients k = .ok m := elementAt_eq_ok.2 hm
  simp only [hm, Option.toList_some, List.flatMap_singleton, matrixEntries, List.map_map,
    hcoefficient]
  rfl

/-- A file consists of a comment, its header and its entries. -/
theorem sparseLines_eq_ok {p : NumericProblem S K} (h : p.IsComplete) (comment : Option String) :
    sparseLines p comment =
      .ok (commentLines comment ++ headerLines p ++ (entries p).map Entry.line) := by
  have hcoefficients : (List.range p.variableCount).mapM (coefficientLines p) =
      .ok ((List.range p.variableCount).map fun k => (blockEntries p (k + 1)).map Entry.line) := by
    refine Except.mapM_eq_ok_of_forall₂ ?_
    rw [List.forall₂_map_right_iff, List.forall₂_same]
    exact fun k hk => coefficientLines_eq_ok h (List.mem_range.1 hk)
  unfold sparseLines
  refine Except.bind_eq_ok.2 ⟨_, hcoefficients, congrArg Except.ok ?_⟩
  unfold entries
  rw [List.range_succ_eq_map, List.flatMap_cons, List.flatMap_map, List.map_append,
    List.map_flatMap, ← constantLines_eq_map, ← List.flatMap_def, List.append_assoc]

/-! ## What the entries say -/

theorem mem_matrixEntries {x block : Nat} {m : S K} {e : Entry K} :
    e ∈ matrixEntries x block m ↔ ∃ c v, (c, v) ∈ (kept m).entries ∧ c.row ≤ c.col ∧
      e = Entry.ofListed x block (c, signed x v) := by
  unfold matrixEntries upperEntries
  simp only [List.mem_map, List.mem_filter, decide_eq_true_eq, Prod.exists]
  constructor
  · rintro ⟨c, v, ⟨hv, hc⟩, rfl⟩
    exact ⟨c, v, hv, hc, rfl⟩
  · rintro ⟨c, v, hv, hc, rfl⟩
    exact ⟨c, v, ⟨hv, hc⟩, rfl⟩

theorem mem_blockEntries {p : NumericProblem S K} {x : Nat} {e : Entry K} :
    e ∈ blockEntries p x ↔ ∃ b block m, p.blocks[b]? = some block ∧ block.matrices[x]? = some m ∧
      e ∈ matrixEntries x (b + 1) m := by
  unfold blockEntries
  simp only [List.mem_flatMap, Option.mem_toList, Prod.exists, List.mem_zipIdx_iff_getElem?]
  constructor
  · rintro ⟨block, b, hblock, m, hm, he⟩
    exact ⟨b, block, m, hblock, hm, he⟩
  · rintro ⟨b, block, m, hblock, hm, he⟩
    exact ⟨block, b, hblock, m, hm, he⟩

/-- An entry is a listed value on or above the diagonal of one of the matrices. -/
theorem mem_entries {p : NumericProblem S K} {e : Entry K} :
    e ∈ entries p ↔ ∃ x b block m, x ≤ p.variableCount ∧ p.blocks[b]? = some block ∧
      block.matrices[x]? = some m ∧ e ∈ matrixEntries x (b + 1) m := by
  unfold entries
  simp only [List.mem_flatMap, List.mem_range, mem_blockEntries]
  constructor
  · rintro ⟨x, hx, b, block, m, hblock, hm, he⟩
    exact ⟨x, b, block, m, by omega, hblock, hm, he⟩
  · rintro ⟨x, b, block, m, hx, hblock, hm, he⟩
    exact ⟨x, by omega, b, block, m, hblock, hm, he⟩

theorem matrix_of_mem_matrixEntries {x block : Nat} {m : S K} {e : Entry K}
    (h : e ∈ matrixEntries x block m) : e.matrix = x ∧ e.block = block := by
  obtain ⟨c, v, -, -, rfl⟩ := mem_matrixEntries.1 h
  exact ⟨rfl, rfl⟩

theorem mem_entries_and_matrix {p : NumericProblem S K} {x b : Nat} (hx : x ≤ p.variableCount)
    {block : Pencil S K} (hblock : p.blocks[b]? = some block) {m : S K}
    (hm : block.matrices[x]? = some m) {e : Entry K} :
    (e ∈ entries p ∧ e.matrix = x ∧ e.block = b + 1) ↔ e ∈ matrixEntries x (b + 1) m := by
  constructor
  · rintro ⟨he, rfl, hb⟩
    obtain ⟨x, b', block', m', -, hblock', hm', he⟩ := mem_entries.1 he
    obtain ⟨hx', hb'⟩ := matrix_of_mem_matrixEntries he
    obtain rfl : b' = b := by omega
    obtain rfl : e.matrix = x := hx'
    rw [hblock] at hblock'
    cases hblock'
    rw [hm] at hm'
    cases hm'
    exact he
  · intro he
    exact ⟨mem_entries.2 ⟨x, b, block, m, hx, hblock, hm, he⟩, matrix_of_mem_matrixEntries he⟩

/-! ## Ranges -/

theorem entry_inside {x block n : Nat} {m : S K} (h : Lists m) (hshape : Storage.shape m = (n, n))
    {e : Entry K} (he : e ∈ matrixEntries x block m) :
    1 ≤ e.row ∧ e.row ≤ e.col ∧ e.col ≤ n := by
  obtain ⟨c, v, hv, hle, rfl⟩ := mem_matrixEntries.1 he
  have hinside := h.inside _ hv
  unfold Inside at hinside
  rw [hshape] at hinside
  have hcol : c.col < n := hinside.2
  simp only [Entry.ofListed]
  omega

theorem inRange_of_mem_entries {p : NumericProblem S K}
    (hlists : ∀ block ∈ p.blocks, ∀ m ∈ block.matrices, Lists m)
    (hshapes : ∀ block ∈ p.blocks, ∀ m ∈ block.matrices,
      Storage.shape m = (block.shape.1, block.shape.1))
    {e : Entry K} (he : e ∈ entries p) : e.InRange p.variableCount p.blockSizes := by
  obtain ⟨x, b, block, m, hx, hblock, hm, he⟩ := mem_entries.1 he
  have hmem := List.mem_of_getElem? hblock
  obtain ⟨hmatrix, hnumber⟩ := matrix_of_mem_matrixEntries he
  have hlength : b < p.blocks.length := (List.getElem?_eq_some_iff.1 hblock).1
  have hsize : p.blockSizes[e.block - 1]? = some block.shape.1 := by
    rw [hnumber, Nat.add_sub_cancel]
    unfold NumericProblem.blockSizes
    rw [List.getElem?_map, hblock]
    rfl
  refine ⟨⟨Nat.zero_le _, by omega⟩, ⟨by omega, ?_⟩, block.shape.1, hsize, ?_⟩
  · rw [hnumber]
    simpa [NumericProblem.blockSizes] using hlength
  · exact entry_inside (hlists block hmem m (List.mem_of_getElem? hm))
      (hshapes block hmem m (List.mem_of_getElem? hm)) he

/-- No number other than zero on or above the diagonal is left out. -/
theorem mem_entries_of_value [LawfulZero K] {p : NumericProblem S K} {x b : Nat}
    (hx : x ≤ p.variableCount) {block : Pencil S K} (hblock : p.blocks[b]? = some block) {m : S K}
    (hm : block.matrices[x]? = some m) (h : Lists m) {i j : Nat} (hle : i ≤ j)
    (hinside : Inside m ⟨i, j⟩) (hvalue : (value m i j == 0) = false) :
    Entry.ofListed x (b + 1) (⟨i, j⟩, signed x (value m i j)) ∈ entries p := by
  refine mem_entries.2 ⟨x, b, block, m, hx, hblock, hm, mem_matrixEntries.2 ?_⟩
  refine ⟨⟨i, j⟩, _, ?_, hle, rfl⟩
  by_contra hnot
  have hkey : (⟨i, j⟩ : Cell) ∉ (kept m).keys := by
    intro hkey
    obtain ⟨⟨c, v⟩, hv, hc⟩ := List.mem_map.1 hkey
    obtain rfl : c = ⟨i, j⟩ := hc
    exact hnot (h.value_of_mem hv ▸ hv)
  rw [h.value_of_not_mem hinside hkey] at hvalue
  cases hvalue

/-! ## Order -/

theorem matrixEntries_precede {x block : Nat} {m : S K} (h : Lists m) :
    (matrixEntries x block m).Pairwise Entry.Precedes := by
  have hlisted : (nonzeros m).Pairwise fun p q => p.1.Precedes q.1 :=
    h.ascending.imp Cell.compare_eq_lt.1
  unfold matrixEntries upperEntries
  rw [List.pairwise_map]
  refine (hlisted.filter _).imp ?_
  rintro ⟨c, u⟩ ⟨c', v⟩ (hrow | ⟨hrow, hcol⟩)
  · exact .inr ⟨rfl, .inr ⟨rfl, .inl (Nat.add_lt_add_right hrow 1)⟩⟩
  · exact .inr ⟨rfl, .inr ⟨rfl, .inr ⟨congrArg (· + 1) hrow, Nat.add_lt_add_right hcol 1⟩⟩⟩

/-- Entries follow each other by matrix, block, row and column. -/
theorem entries_precede {p : NumericProblem S K}
    (h : ∀ block ∈ p.blocks, ∀ m ∈ block.matrices, Lists m) :
    (entries p).Pairwise Entry.Precedes := by
  unfold entries
  rw [List.pairwise_flatMap]
  refine ⟨fun x _ => ?_, List.pairwise_lt_range.imp fun {x x'} hx e he f hf => ?_⟩
  · unfold blockEntries
    rw [List.pairwise_flatMap]
    refine ⟨fun (block, b) hblock => ?_, ?_⟩
    · show (block.matrices[x]?.toList.flatMap (matrixEntries x (b + 1))).Pairwise Entry.Precedes
      cases hm : block.matrices[x]? with
      | none => exact .nil
      | some m =>
        rw [Option.toList_some, List.flatMap_singleton]
        exact matrixEntries_precede
          (h block (List.fst_mem_of_mem_zipIdx hblock) m (List.mem_of_getElem? hm))
    · have hindices : (p.blocks.zipIdx.map Prod.snd).Pairwise (· < ·) := by
        rw [List.zipIdx_map_snd]
        exact List.pairwise_lt_range'
      refine (List.pairwise_map.1 hindices).imp fun {q r} hlt e he f hf => ?_
      obtain ⟨m, -, he⟩ := List.mem_flatMap.1 he
      obtain ⟨m', -, hf⟩ := List.mem_flatMap.1 hf
      obtain ⟨hmatrix, hblock⟩ := matrix_of_mem_matrixEntries he
      obtain ⟨hmatrix', hblock'⟩ := matrix_of_mem_matrixEntries hf
      exact .inr ⟨hmatrix.trans hmatrix'.symm, .inl (by omega)⟩
  · obtain ⟨_, _, _, -, -, he⟩ := mem_blockEntries.1 he
    obtain ⟨_, _, _, -, -, hf⟩ := mem_blockEntries.1 hf
    have hmatrix := (matrix_of_mem_matrixEntries he).1
    have hmatrix' := (matrix_of_mem_matrixEntries hf).1
    exact .inl (by omega)

omit [Scalar K] in
theorem Entry.Precedes.position_ne {e f : Entry K} (h : e.Precedes f) :
    e.position ≠ f.position := by
  intro heq
  simp only [position, Prod.mk.injEq] at heq
  unfold Precedes at h
  omega

end Entries

end Sdpa

end Semidefinite
