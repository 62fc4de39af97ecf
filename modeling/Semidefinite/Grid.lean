import Semidefinite.Fault

/-!
# Grids

A grid is a matrix of any entries, kept row after row in one array. `tabulate`
builds a grid from its entries and `Grid.entry` reads one; the other operations
are written with these two, so a grid is determined by what `entry` reads
(`Grid.ext_entry`).
-/

namespace Semidefinite

-- sums of natural numbers start from the core library's zero, whatever else is imported
attribute [local instance (high)] Zero.ofOfNat0

structure Cell where
  row : Nat
  col : Nat
  deriving DecidableEq, Ord, Repr

/-- A matrix of `rows * cols` entries in row-major order. -/
structure Grid (α : Type) where
  rows : Nat
  cols : Nat
  entries : Array α
  size_entries : entries.size = rows * cols

/-- A pair of matrices that do not fit, or rows that are not of one length. -/
inductive MatrixError where
  | raggedRows (row expected found : Nat)
  | shapeMismatch (left right : Nat × Nat)
  deriving DecidableEq, Repr

def shapeText (shape : Nat × Nat) : String :=
  Fault.sizeText shape.1 shape.2

namespace MatrixError

def code : MatrixError → String
  | raggedRows .. => "MATRIX_RAGGED_ROWS"
  | shapeMismatch .. => "MATRIX_SHAPE_MISMATCH"

def message (e : MatrixError) : String :=
  "[" ++ e.code ++ "] " ++
    match e with
    | raggedRows row expected found =>
      "Row " ++ Nat.repr row ++ " has " ++ Nat.repr found ++ " entries, expected " ++
        Nat.repr expected
    | shapeMismatch left right =>
      "Matrix shapes differ: " ++ shapeText left ++ " vs " ++ shapeText right

end MatrixError

namespace Grid

variable {α β γ : Type}

theorem index_lt {rows cols i j : Nat} (hi : i < rows) (hj : j < cols) :
    i * cols + j < rows * cols :=
  calc i * cols + j < i * cols + cols := Nat.add_lt_add_left hj _
    _ = (i + 1) * cols := (Nat.succ_mul i cols).symm
    _ ≤ rows * cols := Nat.mul_le_mul_right _ hi

theorem row_lt {rows cols k : Nat} (h : k < rows * cols) : k / cols < rows :=
  Nat.div_lt_of_lt_mul (Nat.mul_comm rows cols ▸ h)

theorem col_lt {rows cols k : Nat} (h : k < rows * cols) : k % cols < cols := by
  rcases Nat.eq_zero_or_pos cols with rfl | hc
  · simp at h
  · exact Nat.mod_lt _ hc

/-! ## Reading and building -/

def tabulate (rows cols : Nat) (f : Fin rows → Fin cols → α) : Grid α where
  rows := rows
  cols := cols
  entries := Array.ofFn fun k : Fin (rows * cols) =>
    f ⟨k / cols, row_lt k.isLt⟩ ⟨k % cols, col_lt k.isLt⟩
  size_entries := Array.size_ofFn

/-- The number of entries that a grid has to stay below: together they take less than half of the
addresses, and an expression takes 32 bytes. -/
def entryLimit : Nat := UInt64.size / 2 / 32

/-- Whether the rows and the columns of a shape are words of 64 bits and its cells fewer than
`limit`. A shape with no more rows and columns than entries `held` in memory is not questioned:
where it is too large, memory, which is not modelled, has given out before. -/
def Fits (limit held rows cols : Nat) : Prop :=
  max rows cols ≤ held ∨ rows < UInt64.size ∧ cols < UInt64.size ∧ rows * cols < limit

instance {limit held rows cols : Nat} : Decidable (Fits limit held rows cols) :=
  inferInstanceAs (Decidable (_ ∨ _))

/-- The grid of the given shape with the given entries, of which `held` are in memory. A product of
rows and columns that does not fit is a fault, whether it is trapped or leaves a grid that lacks
the entries of its shape. -/
def tabulate? (held rows cols : Nat) (f : Fin rows → Fin cols → α) : Except Fault (Grid α) :=
  if Fits entryLimit held rows cols then .ok (tabulate rows cols f)
  else .error (.noRoom rows cols)

def entry (g : Grid α) (i : Fin g.rows) (j : Fin g.cols) : α :=
  have h : i * g.cols + j < g.entries.size := g.size_entries ▸ index_lt i.isLt j.isLt
  g.entries[i * g.cols + j]

def entry? (g : Grid α) (i j : Nat) : Option α :=
  if h : i < g.rows ∧ j < g.cols then some (g.entry ⟨i, h.1⟩ ⟨j, h.2⟩) else none

theorem entry_tabulate (rows cols : Nat) (f : Fin rows → Fin cols → α) (i : Fin rows)
    (j : Fin cols) :
    (tabulate rows cols f).entry i j = f i j := by
  have hj : 0 < cols := Nat.lt_of_le_of_lt (Nat.zero_le _) j.isLt
  have hdiv : (i * cols + j : Nat) / cols = i := by
    rw [Nat.add_comm, Nat.add_mul_div_right _ _ hj, Nat.div_eq_of_lt j.isLt, Nat.zero_add]
  have hmod : (i * cols + j : Nat) % cols = j := by
    rw [Nat.add_comm, Nat.add_mul_mod_self_right, Nat.mod_eq_of_lt j.isLt]
  simp only [tabulate, Grid.entry, Array.getElem_ofFn, hdiv, hmod]

/-- Two grids of one shape with the same entries are the same grid. -/
theorem ext_entry {g h : Grid α} (hr : g.rows = h.rows) (hc : g.cols = h.cols)
    (he : ∀ i j, g.entry i j = h.entry (Fin.cast hr i) (Fin.cast hc j)) : g = h := by
  obtain ⟨rows, cols, entries, size⟩ := g
  obtain ⟨rows', cols', entries', size'⟩ := h
  obtain rfl : rows = rows' := hr
  obtain rfl : cols = cols' := hc
  suffices entries = entries' by subst this; rfl
  refine Array.ext (size.trans size'.symm) fun k hk hk' => ?_
  have h := he ⟨k / cols, row_lt (size ▸ hk)⟩ ⟨k % cols, col_lt (size ▸ hk)⟩
  have hcell : k / cols * cols + k % cols = k := Nat.div_add_mod' k cols
  simpa only [Grid.entry, Fin.cast_mk, hcell] using h

def shape (g : Grid α) : Nat × Nat :=
  (g.rows, g.cols)

/-- The entries with their cells, row after row. -/
def cells (g : Grid α) : List (Cell × α) :=
  (List.finRange g.rows).flatMap fun i =>
    (List.finRange g.cols).map fun j => (⟨i.val, j.val⟩, g.entry i j)

def toRows (g : Grid α) : List (List α) :=
  (List.finRange g.rows).map fun i => (List.finRange g.cols).map fun j => g.entry i j

theorem length_flatten_of_uniform {rows : List (List α)} {cols : Nat}
    (h : ∀ row ∈ rows, row.length = cols) : rows.flatten.length = rows.length * cols := by
  induction rows with
  | nil => simp
  | cons row rest ih =>
    rw [List.flatten_cons, List.length_append, h row List.mem_cons_self,
      ih fun r hr => h r (List.mem_cons_of_mem _ hr), List.length_cons, Nat.succ_mul, Nat.add_comm]

/-- The grid with the given rows. The first row sets the number of columns. -/
def ofRows (rows : List (List α)) : Except MatrixError (Grid α) :=
  let cols := (rows.head?.map List.length).getD 0
  match h : rows.findIdx? (fun row => row.length != cols) with
  | some k => .error (.raggedRows k cols ((rows[k]?.map List.length).getD 0))
  | none =>
    .ok {
      rows := rows.length
      cols := cols
      entries := rows.flatten.toArray
      size_entries := by
        rw [List.size_toArray]
        refine length_flatten_of_uniform fun row hrow => ?_
        simpa using List.findIdx?_eq_none_iff.1 h row hrow }

/-! ## Operations -/

def map (f : α → β) (g : Grid α) : Grid β :=
  tabulate g.rows g.cols fun i j => f (g.entry i j)

def transpose (g : Grid α) : Grid α :=
  tabulate g.cols g.rows fun i j => g.entry j i

def zipWith (f : α → β → γ) (g : Grid α) (h : Grid β) (hr : g.rows = h.rows)
    (hc : g.cols = h.cols) : Grid γ :=
  tabulate g.rows g.cols fun i j => f (g.entry i j) (h.entry (Fin.cast hr i) (Fin.cast hc j))

/-- Combines the entries of two grids, if they have one shape. -/
def zipWith? (f : α → β → γ) (g : Grid α) (h : Grid β) : Except MatrixError (Grid γ) :=
  if hs : g.rows = h.rows ∧ g.cols = h.cols then .ok (zipWith f g h hs.1 hs.2)
  else .error (.shapeMismatch g.shape h.shape)

/-- The entry at `(i, j)` of the grids placed along the diagonal, if one of them
covers it. -/
def diagonalCell? : List (Grid α) → Nat → Nat → Option α
  | [], _, _ => none
  | g :: rest, i, j =>
    if i < g.rows ∧ j < g.cols then g.entry? i j
    else if g.rows ≤ i ∧ g.cols ≤ j then diagonalCell? rest (i - g.rows) (j - g.cols)
    else none

/-- The grids placed along the diagonal, top left to bottom right, with `fill`
everywhere else. -/
def blockDiagonal (fill : α) (blocks : List (Grid α)) : Grid α :=
  tabulate (blocks.map rows).sum (blocks.map cols).sum fun i j =>
    (diagonalCell? blocks i j).getD fill

/-- The number of entries that a list of grids holds. -/
def held (blocks : List (Grid α)) : Nat :=
  (blocks.map fun b => b.rows * b.cols).sum

def blockDiagonal? (fill : α) (blocks : List (Grid α)) : Except Fault (Grid α) :=
  tabulate? (held blocks) (blocks.map rows).sum (blocks.map cols).sum fun i j =>
    (diagonalCell? blocks i j).getD fill

/-- The rows from `r₀` up to `r₁` and the columns from `c₀` up to `c₁`, or the
first cell among them that lies outside. -/
def window (g : Grid α) (r₀ r₁ c₀ c₁ : Nat) : Except Cell (Grid α) :=
  if h : r₁ ≤ g.rows ∧ c₁ ≤ g.cols then
    .ok (tabulate (r₁ - r₀) (c₁ - c₀) fun i j =>
      g.entry ⟨r₀ + i, Nat.lt_of_lt_of_le (Nat.add_lt_of_lt_sub' i.isLt) h.1⟩
        ⟨c₀ + j, Nat.lt_of_lt_of_le (Nat.add_lt_of_lt_sub' j.isLt) h.2⟩)
  else if hr : r₁ ≤ r₀ then
    .ok (tabulate (r₁ - r₀) (c₁ - c₀) fun i _ =>
      absurd i.isLt (by simp [Nat.sub_eq_zero_of_le hr]))
  else if hc : c₁ ≤ c₀ then
    .ok (tabulate (r₁ - r₀) (c₁ - c₀) fun _ j =>
      absurd j.isLt (by simp [Nat.sub_eq_zero_of_le hc]))
  else if g.rows ≤ r₀ then .error ⟨r₀, c₀⟩
  else if g.cols < c₁ then .error ⟨r₀, max c₀ g.cols⟩
  else .error ⟨g.rows, c₀⟩

/-- The grid with the entry at `(i, j)` replaced; a cell outside changes nothing. -/
def put (g : Grid α) (i j : Nat) (value : α) : Grid α :=
  if i < g.rows ∧ j < g.cols then
    { g with
      entries := g.entries.setIfInBounds (i * g.cols + j) value
      size_entries := by rw [Array.size_setIfInBounds, g.size_entries] }
  else g

/-- The rows between brackets: `Matrix([[a, b], [c, d]])`. -/
def text (entryText : α → String) (g : Grid α) : String :=
  let rowText (row : List α) := "[" ++ ", ".intercalate (row.map entryText) ++ "]"
  "Matrix([" ++ ", ".intercalate (g.toRows.map rowText) ++ "])"

/-- One shape and equal entries. -/
instance [BEq α] : BEq (Grid α) where
  beq g h := g.rows == h.rows && g.cols == h.cols && g.entries == h.entries

end Grid

end Semidefinite
