import Mathlib.Data.List.OfFn
import Semidefinite.Proofs.Room
import Semidefinite.Proofs.Storage.Dense

/-!
# The layout of matrices

The entries of a matrix lie row after row in one list (`SymMatrix.RowMajor`), and every
operation says what becomes of them in this order (`SymMatrix.KeepsLayout`). Rows make a
matrix if they are of one length (`Grid.exists_ofRows_iff`), and the first that differs is
reported (`Grid.ofRows_eq_error_iff`). Blocks that are placed along the diagonal are found
again past the rows and columns of those before them, between zeros
(`SymMatrix.assembled_blockDiagonal`).
-/

namespace Semidefinite

namespace Grid

variable {α β γ : Type} {g : Grid α} {fill : α}

/-! ## Entries by index -/

theorem getElem?_entries {i j : Nat} (h : i < g.rows ∧ j < g.cols) :
    g.entries[i * g.cols + j]? = g.entry? i j := by
  rw [g.entry?_eq_some h]
  exact Array.getElem?_eq_getElem (g.size_entries ▸ index_lt h.1 h.2)

theorem entries_map (f : α → β) (g : Grid α) : (g.map f).entries = g.entries.map f := by
  refine Array.ext ?_ fun k hk hk' => ?_
  · rw [(g.map f).size_entries, Array.size_map, g.size_entries, rows_map, cols_map]
  · simp only [map, tabulate, entry, Array.getElem_ofFn, Array.getElem_map, Nat.div_add_mod']

theorem entries_zipWith (f : α → β → γ) (g : Grid α) (h : Grid β) (hr : g.rows = h.rows)
    (hc : g.cols = h.cols) :
    (zipWith f g h hr hc).entries = Array.zipWith f g.entries h.entries := by
  refine Array.ext ?_ fun k hk hk' => ?_
  · rw [Array.size_zipWith, (zipWith f g h hr hc).size_entries, g.size_entries, h.size_entries,
      ← hr, ← hc, Nat.min_self]
    rfl
  · simp only [zipWith, tabulate, entry, Array.getElem_ofFn, Array.getElem_zipWith, Fin.val_cast,
      ← hc, Nat.div_add_mod']

theorem transpose_transpose (g : Grid α) : g.transpose.transpose = g := by
  refine ext_entry? rfl rfl fun i j _ _ => ?_
  rw [entry?_transpose, entry?_transpose]

/-! ## Cells -/

theorem cells_fst (g : Grid α) :
    g.cells.map Prod.fst = (List.range g.rows).flatMap fun i =>
      (List.range g.cols).map fun j => ⟨i, j⟩ := by
  rw [← List.map_coe_finRange_eq_range, ← List.map_coe_finRange_eq_range, List.flatMap_map, cells,
    List.map_flatMap]
  simp only [List.map_map, Function.comp_def]

theorem precedes_of_index {cols k l : Nat} (h : k < l) :
    Cell.Precedes ⟨k / cols, k % cols⟩ ⟨l / cols, l % cols⟩ := by
  have hk := Nat.div_add_mod k cols
  have hl := Nat.div_add_mod l cols
  rcases Nat.lt_or_eq_of_le (Nat.div_le_div_right (c := cols) h.le) with hrow | hrow
  · exact .inl hrow
  · rw [hrow] at hk
    exact .inr ⟨hrow, by dsimp only; omega⟩

theorem entry?_of_index {k : Nat} (hk : k < g.entries.size) :
    g.entry? (k / g.cols) (k % g.cols) = some g.entries[k] := by
  have hin : k < g.rows * g.cols := g.size_entries ▸ hk
  rw [g.entry?_eq_some ⟨row_lt hin, col_lt hin⟩]
  simp only [entry, Nat.div_add_mod']

/-- The cell of an entry is its index divided by the number of columns, clamped to one. -/
theorem cells_eq_ofFn (g : Grid α) :
    g.cells = List.ofFn fun k : Fin g.entries.size =>
      (⟨k / max g.cols 1, k % max g.cols 1⟩, g.entries[k]) := by
  have hclamp : ∀ {k}, k < g.entries.size → max g.cols 1 = g.cols := by
    intro k hk
    rw [g.size_entries] at hk
    have hpos := Nat.pos_of_lt_mul_left hk
    omega
  have hordered : (List.ofFn fun k : Fin g.entries.size =>
      ((⟨k / max g.cols 1, k % max g.cols 1⟩ : Cell), g.entries[k])).Pairwise
        fun p q => p.1.Precedes q.1 :=
    List.pairwise_ofFn.2 fun k l hkl => precedes_of_index hkl
  refine eq_of_ordered Cell.Precedes.not_symm g.rowMajor_cells hordered fun ⟨c, a⟩ => ?_
  rw [mem_cells, List.mem_ofFn]
  constructor
  · intro h
    have hin := lt_of_entry?_eq_some h
    have hk : c.row * g.cols + c.col < g.entries.size := g.size_entries ▸ index_lt hin.1 hin.2
    obtain ⟨hrow, hcol⟩ := index_injective (col_lt (g.size_entries ▸ hk)) hin.2
      (Nat.div_add_mod' (c.row * g.cols + c.col) g.cols)
    have hentry := g.entry?_of_index hk
    rw [hrow, hcol, h] at hentry
    refine ⟨⟨_, hk⟩, ?_⟩
    dsimp only
    rw [hclamp hk, hrow, hcol]
    exact congrArg (Prod.mk c) (Option.some.inj hentry).symm
  · rintro ⟨k, hk⟩
    obtain ⟨rfl, rfl⟩ := Prod.mk.inj hk
    dsimp only
    rw [hclamp k.isLt]
    exact g.entry?_of_index k.isLt

/-! ## Rows -/

section Rows
variable {rows : List (List α)}

/-- The length of the first row, and zero without rows. -/
def firstLength (rows : List (List α)) : Nat :=
  (rows.head?.map List.length).getD 0

/-- A row is the first whose length is not that of the first row. -/
structure FirstDiffering (rows : List (List α)) (k : Nat) (row : List α) : Prop where
  found : rows[k]? = some row
  length : row.length ≠ firstLength rows
  before : ∀ l earlier, l < k → rows[l]? = some earlier → earlier.length = firstLength rows

/-- Rows make a grid, or one of them is the first to differ. -/
theorem ofRows_cases (rows : List (List α)) :
    (∀ row ∈ rows, row.length = firstLength rows) ∧
      (∃ g, ofRows rows = .ok g ∧ g.shape = (rows.length, firstLength rows) ∧
        g.entries.toList = rows.flatten) ∨
    ∃ k row, FirstDiffering rows k row ∧
      ofRows rows = .error (.raggedRows k (firstLength rows) row.length) := by
  unfold ofRows
  dsimp only
  split
  · rename_i k hk
    obtain ⟨hlt, hdiffers, hbefore⟩ := List.findIdx?_eq_some_iff_getElem.1 hk
    have hlength : rows[k].length ≠ firstLength rows := by simpa [firstLength] using hdiffers
    refine .inr ⟨k, rows[k], ⟨List.getElem?_eq_getElem hlt, hlength, ?_⟩, ?_⟩
    · intro l earlier hl hearlier
      obtain ⟨hllt, rfl⟩ := List.getElem?_eq_some_iff.1 hearlier
      simpa [firstLength] using hbefore l hl
    · rw [List.getElem?_eq_getElem hlt]
      rfl
  · rename_i hnone
    refine .inl ⟨fun row hrow => ?_, _, rfl, rfl, rfl⟩
    simpa [firstLength] using List.findIdx?_eq_none_iff.1 hnone row hrow

theorem FirstDiffering.not_uniform {k : Nat} {row : List α} (h : FirstDiffering rows k row) :
    ¬ ∀ row ∈ rows, row.length = firstLength rows :=
  fun huniform => h.length (huniform row (List.mem_of_getElem? h.found))

theorem ofRows_eq_ok (h : ofRows rows = .ok g) :
    (∀ row ∈ rows, row.length = firstLength rows) ∧ g.shape = (rows.length, firstLength rows) ∧
      g.entries.toList = rows.flatten := by
  rcases ofRows_cases rows with ⟨huniform, g', hok, hshape, hentries⟩ | ⟨k, row, -, herror⟩
  · obtain rfl : g' = g := Except.ok.inj (hok.symm.trans h)
    exact ⟨huniform, hshape, hentries⟩
  · cases herror.symm.trans h

theorem exists_ofRows_iff :
    (∃ g, ofRows rows = .ok g) ↔ ∀ row ∈ rows, row.length = firstLength rows := by
  constructor
  · rintro ⟨g, hg⟩
    exact (ofRows_eq_ok hg).1
  · intro huniform
    rcases ofRows_cases rows with ⟨-, g, hg, -⟩ | ⟨k, row, hrow, -⟩
    · exact ⟨g, hg⟩
    · exact absurd huniform hrow.not_uniform

theorem ofRows_eq_error_iff {e : MatrixError} : ofRows rows = .error e ↔
    ∃ k row, FirstDiffering rows k row ∧ e = .raggedRows k (firstLength rows) row.length := by
  rcases ofRows_cases rows with ⟨huniform, h, hok, -⟩ | ⟨k, row, hrow, herror⟩
  · rw [hok]
    refine ⟨nofun, ?_⟩
    rintro ⟨k, row, hrow, -⟩
    exact absurd huniform hrow.not_uniform
  · rw [herror]
    constructor
    · intro heq
      cases heq
      exact ⟨k, row, hrow, rfl⟩
    · -- there is only one first row that differs
      rintro ⟨l, other, hother, rfl⟩
      have hkl : k = l := by
        rcases Nat.lt_trichotomy k l with hlt | heq | hlt
        · exact absurd (hother.before k row hlt hrow.found) hrow.length
        · exact heq
        · exact absurd (hrow.before l other hlt hother.found) hother.length
      subst hkl
      obtain rfl : row = other := Option.some.inj (hrow.found.symm.trans hother.found)
      rfl

end Rows

/-! ## Blocks on the diagonal -/

section Blocks
variable {as bs blocks : List (Grid α)} {b : Grid α}

/-- The rows of the blocks before the `k`-th. -/
def rowOffset (blocks : List (Grid α)) (k : Nat) : Nat :=
  ((blocks.take k).map rows).sum

/-- The columns of the blocks before the `k`-th. -/
def colOffset (blocks : List (Grid α)) (k : Nat) : Nat :=
  ((blocks.take k).map cols).sum

/-- A position lies in the rows and columns of the `k`-th block. -/
structure Covers (blocks : List (Grid α)) (k : Nat) (b : Grid α) (i j : Nat) : Prop where
  block : blocks[k]? = some b
  rows : rowOffset blocks k ≤ i ∧ i < rowOffset blocks k + b.rows
  cols : colOffset blocks k ≤ j ∧ j < colOffset blocks k + b.cols

@[simp] theorem rowOffset_zero (blocks : List (Grid α)) : rowOffset blocks 0 = 0 := rfl

@[simp] theorem colOffset_zero (blocks : List (Grid α)) : colOffset blocks 0 = 0 := rfl

theorem rowOffset_succ (b : Grid α) (rest : List (Grid α)) (k : Nat) :
    rowOffset (b :: rest) (k + 1) = b.rows + rowOffset rest k := rfl

theorem colOffset_succ (b : Grid α) (rest : List (Grid α)) (k : Nat) :
    colOffset (b :: rest) (k + 1) = b.cols + colOffset rest k := rfl

/-- A block is read past the rows and columns of those before it. -/
theorem diagonalCell?_offset {k : Nat} (h : blocks[k]? = some b) {i j : Nat} (hi : i < b.rows)
    (hj : j < b.cols) :
    diagonalCell? blocks (rowOffset blocks k + i) (colOffset blocks k + j) = b.entry? i j := by
  induction blocks generalizing k with
  | nil => cases h
  | cons first rest ih =>
    cases k with
    | zero =>
      obtain rfl : first = b := Option.some.inj h
      rw [rowOffset_zero, colOffset_zero, Nat.zero_add, Nat.zero_add, diagonalCell?,
        if_pos ⟨hi, hj⟩]
    | succ k =>
      rw [rowOffset_succ, colOffset_succ, diagonalCell?, if_neg (by omega), if_pos (by omega),
        Nat.add_assoc, Nat.add_assoc, Nat.add_sub_cancel_left, Nat.add_sub_cancel_left]
      exact ih h

theorem offset_add_le {k : Nat} (h : blocks[k]? = some b) :
    rowOffset blocks k + b.rows ≤ (blocks.map rows).sum ∧
      colOffset blocks k + b.cols ≤ (blocks.map cols).sum := by
  induction blocks generalizing k with
  | nil => cases h
  | cons first rest ih =>
    rw [List.map_cons, List.sum_cons, List.map_cons, List.sum_cons]
    cases k with
    | zero =>
      obtain rfl : first = b := Option.some.inj h
      rw [rowOffset_zero, colOffset_zero]
      omega
    | succ k =>
      have hrest := ih h
      rw [rowOffset_succ, colOffset_succ]
      omega

theorem Covers.later {k : Nat} {i j : Nat} {first : Grid α} {rest : List (Grid α)}
    (hi : first.rows ≤ i) (hj : first.cols ≤ j)
    (h : Covers rest k b (i - first.rows) (j - first.cols)) :
    Covers (first :: rest) (k + 1) b i j := by
  obtain ⟨hblock, hrows, hcols⟩ := h
  refine ⟨hblock, ?_, ?_⟩
  · rw [rowOffset_succ]
    omega
  · rw [colOffset_succ]
    omega

theorem diagonalCell?_outside {i j : Nat} (h : ∀ k b, ¬ Covers blocks k b i j) :
    diagonalCell? blocks i j = none := by
  induction blocks generalizing i j with
  | nil => rfl
  | cons first rest ih =>
    have hfirst : ¬ (i < first.rows ∧ j < first.cols) := by
      rintro ⟨hi, hj⟩
      exact h 0 first ⟨rfl, by simpa using hi, by simpa using hj⟩
    rw [diagonalCell?, if_neg hfirst]
    split
    · rename_i hlater
      exact ih fun k b hcovers => h (k + 1) b (hcovers.later hlater.1 hlater.2)
    · rfl

theorem window_of_le {r₀ r₁ c₀ c₁ : Nat} (hrows : r₁ ≤ g.rows) (hcols : c₁ ≤ g.cols) :
    ∃ w, g.window r₀ r₁ c₀ c₁ = .ok w :=
  ⟨_, dif_pos ⟨hrows, hcols⟩⟩

theorem window_blockDiagonal {k : Nat} (h : blocks[k]? = some b) :
    (blockDiagonal fill blocks).window (rowOffset blocks k) (rowOffset blocks k + b.rows)
      (colOffset blocks k) (colOffset blocks k + b.cols) = .ok b := by
  obtain ⟨hrows, hcols⟩ := offset_add_le h
  obtain ⟨w, hw⟩ : ∃ w, (blockDiagonal fill blocks).window (rowOffset blocks k)
      (rowOffset blocks k + b.rows) (colOffset blocks k) (colOffset blocks k + b.cols) = .ok w :=
    window_of_le hrows hcols
  obtain ⟨hwrows, hwcols, hread⟩ := window_eq_ok hw
  rw [Nat.add_sub_cancel_left] at hwrows hread
  rw [Nat.add_sub_cancel_left] at hwcols hread
  rw [hw]
  refine congrArg _ <| ext_entry? hwrows hwcols fun i j hi hj => ?_
  rw [hwrows] at hi
  rw [hwcols] at hj
  rw [hread i j hi hj, entry?_blockDiagonal _ _ ⟨by omega, by omega⟩, diagonalCell?_offset h hi hj,
    b.entry?_eq_some ⟨hi, hj⟩, Option.getD_some]

end Blocks

end Grid

namespace SymMatrix

variable {K : Type} {m n : SymMatrix K}

/-! ## Row after row -/

theorem read_eq_ok {i j : Nat} {e : Expr K} : m.read i j = .ok e ↔ m.entry? i j = some e := by
  unfold read
  cases m.entry? i j with
  | none => exact ⟨nofun, nofun⟩
  | some u => exact ⟨fun h => congrArg _ (Except.ok.inj h), fun h => congrArg _ (Option.some.inj h)⟩

theorem read_tabulate {rows cols : Nat} (f : Fin rows → Fin cols → Expr K) (i : Fin rows)
    (j : Fin cols) : read (Grid.tabulate rows cols f) i j = .ok (f i j) :=
  read_eq_ok.2 (Grid.entry?_tabulate f ⟨i.isLt, j.isLt⟩)

/-- The entries of a matrix lie row after row. -/
structure RowMajor (m : SymMatrix K) : Prop where
  size : m.entries.size = m.rows * m.cols
  inside : ∀ i j, i < m.rows → j < m.cols →
    ∃ e, m.entries[i * m.cols + j]? = some e ∧ m.read i j = .ok e
  outside : ∀ i j, ¬ (i < m.rows ∧ j < m.cols) → m.read i j = .error (.entry i j m.rows m.cols)
  /-- An entry is listed with the row and the column of its index. -/
  listed : m.cells = List.ofFn fun k : Fin m.entries.size =>
    (⟨k / max m.cols 1, k % max m.cols 1⟩, m.entries[k])
  /-- Every cell is listed once, in order. -/
  once : m.cells.map Prod.fst = (List.range m.rows).flatMap fun i =>
    (List.range m.cols).map fun j => ⟨i, j⟩
  /-- A cell is listed with what it reads. -/
  reads : ∀ c e, (c, e) ∈ m.cells ↔ m.read c.row c.col = .ok e
  twice : m.transpose.transpose = m

theorem rowMajor (m : SymMatrix K) : m.RowMajor where
  size := m.size_entries
  inside i j hi hj := by
    refine ⟨_, ?_, read_eq_ok.2 (m.entry?_eq_some ⟨hi, hj⟩)⟩
    rw [Grid.getElem?_entries ⟨hi, hj⟩, m.entry?_eq_some ⟨hi, hj⟩]
  outside i j h := by
    unfold read
    rw [m.entry?_eq_none h]
  listed := m.cells_eq_ofFn
  once := m.cells_fst
  reads c e := Grid.mem_cells.trans read_eq_ok.symm
  twice := m.transpose_transpose

/-! ## Operations -/

/-- The matrix of the given shape with the given entries in their order. -/
structure Holds (m : SymMatrix K) (shape : Nat × Nat) (entries : Array (Expr K)) : Prop where
  shape : m.shape = shape
  entries : m.entries = entries

/-- Combining two matrices succeeds if they have one shape, entry by entry. -/
def Combines (f : Expr K → Expr K → Expr K) (m n : SymMatrix K)
    (outcome : Except MatrixError (SymMatrix K)) : Prop :=
  if m.shape = n.shape then
    ∃ d, outcome = .ok d ∧ Holds d m.shape (Array.zipWith f m.entries n.entries)
  else outcome = .error (.shapeMismatch m.shape n.shape)

theorem combines_zipWith? (f : Expr K → Expr K → Expr K) (m n : SymMatrix K) :
    Combines f m n (m.zipWith? f n) := by
  unfold Combines Grid.zipWith?
  by_cases hshape : m.shape = n.shape
  · have h := Prod.mk.inj hshape
    rw [if_pos hshape, dif_pos h]
    exact ⟨_, rfl, rfl, Grid.entries_zipWith f m n h.1 h.2⟩
  · rw [if_neg hshape, dif_neg fun h => hshape (Prod.ext h.1 h.2)]

theorem exists_submatrix {r₀ r₁ c₀ c₁ : Nat} (hrows : r₁ ≤ m.rows) (hcols : c₁ ≤ m.cols) :
    ∃ w, m.submatrix r₀ r₁ c₀ c₁ = .ok w ∧ w.shape = (r₁ - r₀, c₁ - c₀) ∧
      ∀ i j, i < r₁ - r₀ → j < c₁ - c₀ → read w i j = m.read (r₀ + i) (c₀ + j) := by
  obtain ⟨w, hw⟩ : ∃ w, m.window r₀ r₁ c₀ c₁ = .ok w := Grid.window_of_le hrows hcols
  obtain ⟨hwrows, hwcols, hread⟩ := Grid.window_eq_ok hw
  refine ⟨w, by rw [submatrix, hw]; rfl, Prod.ext hwrows hwcols, fun i j hi hj => ?_⟩
  have hinside := m.entry?_eq_some (i := r₀ + i) (j := c₀ + j) ⟨by omega, by omega⟩
  rw [read_eq_ok.2 hinside]
  exact read_eq_ok.2 ((hread i j hi hj).trans hinside)

variable [Scalar K]

/-- What the operations make of the entries of a matrix. -/
structure KeepsLayout (m : SymMatrix K) : Prop where
  map : ∀ f : Expr K → Expr K, Holds (m.map f) m.shape (m.entries.map f)
  scale : ∀ factor, Holds (m.scale factor) m.shape (m.entries.map (· * factor))
  negate : Holds m.negate m.shape (m.entries.map Expr.negate)
  add : ∀ n, Combines (· + ·) m n (m.add? n)
  sub : ∀ n, Combines (· - ·) m n (m.sub? n)
  transpose : m.transpose.shape = (m.cols, m.rows) ∧ ∀ i j, i < m.cols → j < m.rows →
    read m.transpose i j = m.read j i
  submatrix : ∀ r₀ r₁ c₀ c₁, r₁ ≤ m.rows → c₁ ≤ m.cols →
    ∃ w, m.submatrix r₀ r₁ c₀ c₁ = .ok w ∧ w.shape = (r₁ - r₀, c₁ - c₀) ∧
      ∀ i j, i < r₁ - r₀ → j < c₁ - c₀ → w.read i j = m.read (r₀ + i) (c₀ + j)

theorem keepsLayout (m : SymMatrix K) : m.KeepsLayout where
  map f := ⟨rfl, Grid.entries_map f m⟩
  scale factor := ⟨rfl, Grid.entries_map _ m⟩
  negate := ⟨rfl, Grid.entries_map _ m⟩
  add n := combines_zipWith? _ m n
  sub n := combines_zipWith? _ m n
  transpose := by
    refine ⟨rfl, fun i j hi hj => ?_⟩
    have hinside := m.entry?_eq_some ⟨hj, hi⟩
    rw [read_eq_ok.2 hinside]
    exact read_eq_ok.2 ((m.entry?_transpose i j).trans hinside)
  submatrix _ _ _ _ hrows hcols := exists_submatrix hrows hcols

/-! ## Blocks along the diagonal -/

/-- The blocks lie along the diagonal of a matrix, between zeros. -/
structure Assembled (blocks : List (SymMatrix K)) (m : SymMatrix K) : Prop where
  shape : m.shape = ((blocks.map Grid.rows).sum, (blocks.map Grid.cols).sum)
  block : ∀ k b, blocks[k]? = some b →
    m.submatrix (Grid.rowOffset blocks k) (Grid.rowOffset blocks k + b.rows)
      (Grid.colOffset blocks k) (Grid.colOffset blocks k + b.cols) = .ok b
  outside : ∀ i j, i < m.rows → j < m.cols → (∀ k b, ¬ Grid.Covers blocks k b i j) →
    m.read i j = .ok Expr.zero

theorem assembled_blockDiagonal (blocks : List (SymMatrix K)) :
    Assembled blocks (blockDiagonal blocks) where
  shape := rfl
  block k b h := by
    unfold submatrix blockDiagonal
    rw [Grid.window_blockDiagonal h]
    rfl
  outside i j hi hj h := by
    unfold blockDiagonal at *
    rw [read_eq_ok, Grid.entry?_blockDiagonal _ _ ⟨hi, hj⟩, Grid.diagonalCell?_outside h,
      Option.getD_none]

theorem assembled_of_blockDiagonal? {blocks : List (SymMatrix K)} {m : SymMatrix K}
    (h : blockDiagonal? blocks = .ok m) : Assembled blocks m := by
  obtain ⟨-, rfl⟩ := Grid.tabulate?_eq_ok_iff.1 h
  exact assembled_blockDiagonal blocks

/-- Every matrix is laid out row after row, whatever operations led to it, and the operations keep
its entries in their order. A matrix that is given by its entries reads them, if they fit. Rows make
a matrix if they have the length of the first one, otherwise the first that has not is reported.
Blocks that were placed along the diagonal are found at their offsets, and all else is the literal
zero; they are placed if there is room, as there is for square blocks. -/
theorem layout_kept :
    (∀ m : SymMatrix K, m.RowMajor ∧ m.KeepsLayout) ∧
    (∀ (held rows cols : Nat) (f : Fin rows → Fin cols → Expr K),
      ((∃ m, Grid.tabulate? held rows cols f = .ok m) ↔
        Grid.Fits Grid.entryLimit held rows cols) ∧
      ∀ m, Grid.tabulate? held rows cols f = .ok m → m.shape = (rows, cols) ∧
        ∀ (i : Fin rows) (j : Fin cols), read m i j = .ok (f i j)) ∧
    (∀ rows : List (List (Expr K)),
      ((∃ m, Grid.ofRows rows = .ok m) ↔ ∀ row ∈ rows, row.length = Grid.firstLength rows) ∧
      (∀ m, Grid.ofRows rows = .ok m →
        m.shape = (rows.length, Grid.firstLength rows) ∧ m.entries.toList = rows.flatten) ∧
      ∀ e, Grid.ofRows rows = .error e ↔ ∃ k row, Grid.FirstDiffering rows k row ∧
        e = .raggedRows k (Grid.firstLength rows) row.length) ∧
    ∀ blocks : List (SymMatrix K),
      ((∃ m, blockDiagonal? blocks = .ok m) ↔ Grid.Fits Grid.entryLimit (Grid.held blocks)
        (blocks.map Grid.rows).sum (blocks.map Grid.cols).sum) ∧
      (∀ m, blockDiagonal? blocks = .ok m → Assembled blocks m) ∧
      ((∀ b ∈ blocks, Grid.rows b = Grid.cols b) → ∃ m, blockDiagonal? blocks = .ok m) := by
  refine ⟨fun m => ⟨m.rowMajor, m.keepsLayout⟩, fun held rows cols f => ⟨Grid.exists_tabulate?_iff,
    fun m hm => ?_⟩, fun _ => ⟨Grid.exists_ofRows_iff, fun _ hm => (Grid.ofRows_eq_ok hm).2,
      fun _ => Grid.ofRows_eq_error_iff⟩,
    fun blocks => ⟨Grid.exists_tabulate?_iff, fun _ => assembled_of_blockDiagonal?,
      fun hsquare => Grid.exists_tabulate?_iff.2 (Grid.fits_of_square _ hsquare)⟩⟩
  obtain ⟨-, rfl⟩ := Grid.tabulate?_eq_ok_iff.1 hm
  exact ⟨rfl, read_tabulate f⟩

/-- Blocks of three rows, of `2 ^ 62 - 1` columns and of one entry have no room along the
diagonal. -/
theorem layout_lost_of_strips :
    let blocks : List (SymMatrix ℚ) := [zeros 3 0, zeros 0 (2 ^ 62 - 1), identity 1]
    blockDiagonal? blocks = .error (.noRoom 4 (2 ^ 62)) := by
  intro blocks
  have hrows : (blocks.map Grid.rows).sum = 4 := by decide +kernel
  have hcols : (blocks.map Grid.cols).sum = 2 ^ 62 := by decide +kernel
  have hnone : ¬ Grid.Fits Grid.entryLimit (Grid.held blocks) (blocks.map Grid.rows).sum
      (blocks.map Grid.cols).sum := by
    decide +kernel
  rw [blockDiagonal?, Grid.blockDiagonal?, Grid.tabulate?_of_not_fits _ hnone, hrows, hcols]

/-- Blocks without columns still take their rows. -/
example : (blockDiagonal [zeros 2 0, identity 1] : SymMatrix ℚ).read 2 0 = .ok (.const 1) := rfl

end SymMatrix

end Semidefinite
