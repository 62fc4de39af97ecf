import Semidefinite.Proofs.Export.SparseRoundTrip

/-!
# Dense files are read back

A dense file has a group of lines for the negated constants and one for each
variable, with a part for each block. `DenseFile.reader` knows from the header how
many groups and parts there are and how many lines each part has, so it needs no
more than the commas to tell the numbers apart. What it reads are the matrices of
the problem (`read_renderDense`), and of a symmetric problem they are those that the
sparse file says.
-/

namespace Semidefinite

open Storage LineReader Text

variable {K : Type} [Scalar K]

/-- The grids have one shape and the same numbers, whose zeros may have either sign. -/
def Grid.AlikeCells (g h : Grid K) : Prop :=
  g.shape = h.shape ∧ ∀ i j, i < g.rows → j < g.cols → Alike (value g i j) (value h i j)

theorem Grid.value_eq_of_some {g : Grid K} {i j : Nat} {v : K} (h : g.entry? i j = some v) :
    value g i j = v :=
  value_of_get (get_eq_of_some h)

theorem Grid.Shows.alikeCells {g h : Grid K} {n : Nat} {f : Nat → Nat → K} (hg : g.Shows n f)
    (hshape : h.shape = (n, n)) (hf : ∀ i j, i < n → j < n → value h i j = f i j) :
    g.AlikeCells h := by
  obtain ⟨hrows, hcols⟩ := Prod.mk.inj hg.1
  refine ⟨hg.1.trans hshape.symm, fun i j hi hj => ?_⟩
  obtain ⟨v, hentry, halike⟩ := hg.2 i j (hrows ▸ hi) (hcols ▸ hj)
  rwa [value_eq_of_some hentry, hf i j (hrows ▸ hi) (hcols ▸ hj)]

namespace Sdpa

/-! ## The reader -/

/-- What a dense file says: the matrices of all blocks, first the negated constants, then the
coefficients of each variable. -/
structure DenseFile (K : Type) where
  objective : List K
  sizes : List Nat
  groups : List (List (Grid K))

namespace DenseFile

/-- The rows of a matrix, `n` numbers a line. Blanks and braces are skipped. -/
def rows? (number : List Char → Option K) (n : Nat) (lines : List (List Char)) :
    Option (List (List K)) :=
  lines.mapM (numbers? number [' ', '\x7b', '\x7d'] n)

def gridOf (n : Nat) (rows : List (List K)) : Grid K :=
  Grid.tabulate n n fun i j => ((rows[i.val]?.getD [])[j.val]?).getD 0

def grid (number : List Char → Option K) (n : Nat) : LineReader (Grid K) := do
  expect " \x7b"
  let rows ← rows? number n (← take n)
  expect " \x7d"
  pure (gridOf n rows)

def group (number : List Char → Option K) (sizes : List Nat) : LineReader (List (Grid K)) := do
  expect "\x7b"
  let matrices ← sizes.mapM (grid number)
  expect "\x7d"
  pure matrices

/-- Takes the header, and a group for the constants and for each variable. -/
def reader (number : List Char → Option K) : LineReader (DenseFile K) := do
  let (objective, sizes) ← header number
  let groups ← (List.replicate (objective.length + 1) sizes).mapM (group number)
  pure ⟨objective, sizes, groups⟩

end DenseFile

/-! ## Rows -/

omit [Scalar K] in
theorem getElem?_toRows {g : Grid K} {i j : Nat} (h : i < g.rows ∧ j < g.cols) :
    (g.toRows[i]?.getD [])[j]? = g.entry? i j := by
  rw [g.entry?_eq_some h]
  simp [Grid.toRows, h]

theorem gridOf_toRows {g : Grid K} {n : Nat} (h : g.shape = (n, n)) :
    DenseFile.gridOf n g.toRows = g := by
  obtain ⟨rfl, hcols⟩ := Prod.mk.inj h
  refine Grid.ext_entry? rfl hcols.symm fun i j hi hj => ?_
  have hi : i < g.rows := hi
  have hj : j < g.rows := hj
  have hin : i < g.rows ∧ j < g.cols := ⟨hi, hcols ▸ hj⟩
  rw [DenseFile.gridOf, Grid.entry?_tabulate _ ⟨hi, hj⟩, getElem?_toRows hin, g.entry?_eq_some hin]
  rfl

omit [Scalar K] in
theorem length_of_mem_toRows {g : Grid K} {row : List K} (h : row ∈ g.toRows) :
    row.length = g.cols := by
  obtain ⟨i, -, rfl⟩ := List.mem_map.1 h
  rw [List.length_map, List.length_finRange]

omit [Scalar K] in
theorem entry_of_mem_toRows {g : Grid K} {row : List K} (h : row ∈ g.toRows) {v : K}
    (hv : v ∈ row) : ∃ i j, g.entry? i j = some v := by
  obtain ⟨i, -, rfl⟩ := List.mem_map.1 h
  obtain ⟨j, -, rfl⟩ := List.mem_map.1 hv
  exact ⟨i, j, g.entry?_entry i j⟩

def rowLine (row : List K) : String :=
  "  \x7b " ++ ", ".intercalate (row.map Scalar.fileText) ++ " \x7d"

theorem matrixLines_eq (g : Grid K) :
    matrixLines g = [" \x7b"] ++ separated (g.toRows.map rowLine) ++ [" \x7d"] :=
  rfl

/-- Lines are as they were, some with a comma after them. -/
theorem forall₂_separated (lines : List String) :
    List.Forall₂ (fun line line' => line' = line ∨ line' = line ++ ",")
      lines (separated lines) := by
  induction lines with
  | nil => exact .nil
  | cons line rest ih =>
    cases rest with
    | nil => exact .cons (.inl rfl) .nil
    | cons next rest => exact .cons (.inr rfl) ih

/-! ## Reading groups -/

section Groups
variable {number : List Char → Option K} {F : Set K}

/-- A grid of `n` rows and columns with numbers of `F`. -/
def IsLegibleGrid (F : Set K) (n : Nat) (g : Grid K) : Prop :=
  g.shape = (n, n) ∧ ∀ row ∈ g.toRows, ∀ v ∈ row, v ∈ F

variable (hnumber : ReadsNumber number F)
  (hunmarked : ∀ v ∈ F, ∀ c ∈ [',', ' ', '\x7b', '\x7d'], c ∉ (Scalar.fileText v).toList)
include hnumber hunmarked

/-- The line of a row says the row, with or without a comma after it. -/
theorem numbers?_rowLine {n : Nat} {row : List K} (hlength : row.length = n)
    (hrow : ∀ v ∈ row, v ∈ F) {line : String}
    (hline : line = rowLine row ∨ line = rowLine row ++ ",") :
    numbers? number [' ', '\x7b', '\x7d'] n line.toList = some row := by
  have hread : ∀ after : List Char, after = " \x7d".toList ∨ after = " \x7d,".toList →
      numbers? number [' ', '\x7b', '\x7d'] n ("  \x7b ".toList ++
        (", ".intercalate (row.map Scalar.fileText)).toList ++ after) = some row := by
    intro after hafter
    rw [← hlength]
    refine numbers?_intercalate hnumber hunmarked (by decide) hrow _ after (by decide) ?_
    rcases hafter with rfl | rfl
    · exact .inl (by decide)
    · exact .inr (by decide)
  rcases hline with rfl | rfl
  · rw [rowLine, String.toList_append, String.toList_append]
    exact hread _ (.inl rfl)
  · rw [rowLine, String.toList_append, String.toList_append, String.toList_append,
      List.append_assoc]
    exact hread _ (.inr rfl)

theorem rows?_separated {n : Nat} {rows : List (List K)}
    (hrows : ∀ row ∈ rows, row.length = n ∧ ∀ v ∈ row, v ∈ F) :
    DenseFile.rows? number n ((separated (rows.map rowLine)).map String.toList) = some rows := by
  unfold DenseFile.rows?
  refine mapM_eq_some_of_forall₂ ?_
  rw [List.forall₂_map_left_iff]
  have hlines := forall₂_separated (rows.map rowLine)
  rw [List.forall₂_map_left_iff] at hlines
  refine List.Forall₂.flip (((List.forall₂_and_left _ _).2 ⟨hrows, hlines⟩).imp ?_)
  rintro row line ⟨⟨hlength, hrow⟩, hline⟩
  exact numbers?_rowLine hnumber hunmarked hlength hrow hline

theorem reads_grid {n : Nat} {g : Grid K} (hg : IsLegibleGrid F n g) :
    Reads (DenseFile.grid number n) ((matrixLines g).map String.toList) g := by
  obtain ⟨hshape, hvalues⟩ := hg
  obtain ⟨hrows, hcols⟩ := Prod.mk.inj hshape
  have hlength : ((separated (g.toRows.map rowLine)).map String.toList).length = n := by
    rw [List.length_map, ← (forall₂_separated _).length_eq, List.length_map, ← hrows]
    simp [Grid.toRows]
  have hread := rows?_separated hnumber hunmarked (n := n) fun row hrow =>
    ⟨(length_of_mem_toRows hrow).trans hcols, hvalues row hrow⟩
  rw [matrixLines_eq, List.map_append, List.map_append, List.append_assoc]
  unfold DenseFile.grid
  refine (reads_expect _).bind (Reads.bind ?_ (Reads.bind_some hread ?_))
  · rw [← hlength]
    exact reads_take _
  · rw [gridOf_toRows hshape]
    exact (reads_expect _).bind_line (reads_pure _)

theorem reads_group {sizes : List Nat} {matrices : List (Grid K)}
    (hsizes : matrices.map Grid.rows = sizes)
    (hmatrices : ∀ g ∈ matrices, IsLegibleGrid F g.rows g) :
    Reads (DenseFile.group number sizes) ((groupLines matrices).map String.toList) matrices := by
  have hlines : (groupLines matrices).map String.toList = "\x7b".toList ::
      (matrices.flatMap (fun g => (matrixLines g).map String.toList) ++ ["\x7d".toList]) := by
    simp [groupLines, List.map_flatMap]
  have hread : Reads ((matrices.map Grid.rows).mapM (DenseFile.grid number))
      (matrices.flatMap fun g => (matrixLines g).map String.toList) matrices :=
    reads_mapM fun g hg => reads_grid hnumber hunmarked (hmatrices g hg)
  rw [hlines, ← hsizes]
  unfold DenseFile.group
  exact (reads_expect _).bind_line (hread.bind ((reads_expect _).bind_line (reads_pure _)))

theorem run_reader_dense {S : Type → Type} [Storage S] {p : NumericProblem S K}
    (hobjective : ∀ v ∈ p.objective, v ∈ F) {groups : List (List (Grid K))}
    (hcount : groups.length = p.variableCount + 1)
    (hgroups : ∀ matrices ∈ groups, matrices.map Grid.rows = p.blockSizes ∧
      ∀ g ∈ matrices, IsLegibleGrid F g.rows g) :
    (DenseFile.reader number).run ((headerLines p ++ groups.flatMap groupLines).map String.toList) =
      some (⟨p.objective, p.blockSizes, groups⟩, []) := by
  have hread : Reads ((groups.map fun _ => p.blockSizes).mapM (DenseFile.group number))
      (groups.flatMap fun matrices => (groupLines matrices).map String.toList) groups :=
    reads_mapM fun matrices hmem =>
      reads_group hnumber hunmarked (hgroups matrices hmem).1 (hgroups matrices hmem).2
  have hsizes : groups.map (fun _ => p.blockSizes) =
      List.replicate (p.objective.length + 1) p.blockSizes := by
    rw [List.map_const', hcount]
    rfl
  have hheader : ∀ v ∈ F, ∀ c ∈ [',', ' '], c ∉ (Scalar.fileText v).toList := fun v hv c hc =>
    hunmarked v hv c (List.mem_append_left ['\x7b', '\x7d'] hc)
  refine Reads.run_eq ?_
  unfold DenseFile.reader
  rw [List.map_append, List.map_flatMap]
  refine (reads_header hnumber hheader hobjective).bind ?_
  rw [← List.append_nil (groups.flatMap _)]
  rw [hsizes] at hread
  exact hread.bind (reads_pure _)

end Groups

/-! ## The groups of a problem -/

/-- The file says what the problem is: its objective, its block sizes, and the matrices of all
blocks, first the negated constants and then the coefficients of each variable. -/
structure DenseFile.Describes (file : DenseFile K) (p : NumericProblem Grid K) : Prop where
  objective : file.objective = p.objective
  sizes : file.sizes = p.blockSizes
  count : file.groups.length = p.variableCount + 1
  constants : file.groups[0]? = some (p.blocks.map fun block => block.constant.map (-·))
  coefficients : ∀ k < p.variableCount, ∃ group, file.groups[k + 1]? = some group ∧
    List.Forall₂ (fun block m => block.coefficients[k]? = some m) p.blocks group

section Problem
variable {p : NumericProblem Grid K}

/-- What holds of each block with its negated constant and with each of its coefficients holds of
each block with its matrix in any group. -/
theorem DenseFile.Describes.forall₂_of_mem {file : DenseFile K} (h : file.Describes p)
    {P : Pencil Grid K → Grid K → Prop}
    (hconstant : ∀ block ∈ p.blocks, P block (block.constant.map (-·)))
    (hcoefficient : ∀ block ∈ p.blocks, ∀ m ∈ block.coefficients, P block m)
    {group : List (Grid K)} (hgroup : group ∈ file.groups) : List.Forall₂ P p.blocks group := by
  obtain ⟨x, hx, rfl⟩ := List.getElem_of_mem hgroup
  cases x with
  | zero =>
    have hconstants := h.constants
    rw [List.getElem?_eq_getElem hx, Option.some.injEq] at hconstants
    rw [hconstants, List.forall₂_map_right_iff, List.forall₂_same]
    exact hconstant
  | succ k =>
    have hk : k < p.variableCount := by
      have hcount := h.count
      omega
    obtain ⟨group, hgroup, hmatrices⟩ := h.coefficients k hk
    rw [List.getElem?_eq_getElem hx, Option.some.injEq] at hgroup
    rw [hgroup]
    refine ((List.forall₂_and_left _ _).2 ⟨fun block hblock => hblock, hmatrices⟩).imp ?_
    rintro block m ⟨hblock, hm⟩
    exact hcoefficient block hblock m (List.mem_of_getElem? hm)

/-- A file consists of a comment, its header, and a group for the constants and for each
variable. -/
theorem exists_denseLines (h : p.IsComplete) (comment : Option String) : ∃ groups,
    denseLines p comment =
        .ok (commentLines comment ++ headerLines p ++ groups.flatMap groupLines) ∧
      DenseFile.Describes ⟨p.objective, p.blockSizes, groups⟩ p := by
  have hgroup : ∀ k ∈ List.range p.variableCount,
      ∃ group, (p.blocks.mapM fun block => elementAt block.coefficients k) = .ok group := by
    intro k hk
    refine Except.exists_mapM_eq_ok fun block hblock => ?_
    obtain ⟨m, hm⟩ := h.exists_matrix (x := k + 1) hblock (List.mem_range.1 hk)
    exact ⟨m, elementAt_eq_ok.2 hm⟩
  obtain ⟨groups, hgroups⟩ := Except.exists_mapM_eq_ok hgroup
  have hparts := Except.forall₂_of_mapM_eq_ok hgroups
  have hlines : (List.range p.variableCount).mapM (fun k =>
      groupLines <$> p.blocks.mapM fun block => elementAt block.coefficients k) =
      .ok (groups.map groupLines) := by
    refine Except.mapM_eq_ok_of_forall₂ ?_
    rw [List.forall₂_map_right_iff]
    exact hparts.imp fun k group hgroup => Except.map_eq_ok.2 ⟨group, hgroup, rfl⟩
  have hcount : groups.length = p.variableCount := by
    rw [← hparts.length_eq, List.length_range]
  refine ⟨(p.blocks.map fun block => block.constant.map (-·)) :: groups, ?_, rfl, rfl,
    congrArg (· + 1) hcount, rfl, fun k hk => ?_⟩
  · unfold denseLines
    refine Except.bind_eq_ok.2 ⟨_, hlines, congrArg Except.ok ?_⟩
    rw [List.flatMap_cons, ← List.flatMap_def, List.append_assoc]
  · have hk' : k < groups.length := hcount ▸ hk
    have hgroup := hparts.get (by rwa [List.length_range]) hk'
    simp only [List.get_eq_getElem, List.getElem_range] at hgroup
    exact ⟨groups[k], List.getElem?_eq_getElem hk',
      (Except.forall₂_of_mapM_eq_ok hgroup).imp fun _ _ => elementAt_eq_ok.1⟩

variable [LawfulZeros K] {F : Set K}

theorem mem_of_squareIn {n : Nat} {g : Grid K} (h : Storage.SquareIn F n g) {i j : Nat} {v : K}
    (hentry : g.entry? i j = some v) : v ∈ F := by
  obtain ⟨hi, hj⟩ := Grid.lt_of_entry?_eq_some hentry
  obtain ⟨hrows, hcols⟩ := Prod.mk.inj h.shape
  exact Grid.value_eq_of_some hentry ▸ h.value_mem i j (hrows ▸ hi) (hcols ▸ hj)

theorem isLegibleGrid_of_squareIn {n : Nat} {g : Grid K} (h : Storage.SquareIn F n g) :
    IsLegibleGrid F n g := by
  refine ⟨h.shape, fun row hrow v hv => ?_⟩
  obtain ⟨i, j, hentry⟩ := entry_of_mem_toRows hrow hv
  exact mem_of_squareIn h hentry

theorem isLegibleGrid_neg (hneg : ∀ v ∈ F, -v ∈ F) {n : Nat} {g : Grid K}
    (h : Storage.SquareIn F n g) : IsLegibleGrid F n (g.map (-·)) := by
  refine ⟨h.shape, fun row hrow v hv => ?_⟩
  obtain ⟨i, j, hentry⟩ := entry_of_mem_toRows hrow hv
  rw [Grid.entry?_map, Option.map_eq_some_iff] at hentry
  obtain ⟨u, hu, rfl⟩ := hentry
  exact hneg u (mem_of_squareIn h hu)

/-- Each group has a matrix for every block, of its size and with numbers of `F`. -/
theorem legible_of_mem_groups (hneg : ∀ v ∈ F, -v ∈ F) (hp : p.SquareIn F) {file : DenseFile K}
    (hfile : file.Describes p) {group : List (Grid K)} (hgroup : group ∈ file.groups) :
    group.map Grid.rows = p.blockSizes ∧ ∀ g ∈ group, IsLegibleGrid F g.rows g := by
  have hblocks : List.Forall₂ (fun block g => IsLegibleGrid F block.shape.1 g) p.blocks group :=
    hfile.forall₂_of_mem
      (fun block hblock => isLegibleGrid_neg hneg (hp.matrices block hblock _ List.mem_cons_self))
      (fun block hblock m hm => isLegibleGrid_of_squareIn
        (hp.matrices block hblock m (List.mem_cons_of_mem _ hm)))
      hgroup
  constructor
  · exact (map_eq_map_of_forall₂ (hblocks.imp fun _ _ h => (Prod.mk.inj h.1).1.symm)).symm
  · intro g hg
    obtain ⟨block, -, hlegible⟩ := exists_of_mem_right hblocks hg
    rwa [(Prod.mk.inj hlegible.1).1]

/-! ## Agreement with the sparse file -/

theorem alikeCells_of_describes (hp : p.SquareIn F) {dense : DenseFile K} {sparse : SparseFile K}
    (hdense : dense.Describes p) (hsparse : sparse.Describes p) {x b : Nat} {group : List (Grid K)}
    (hgroup : dense.groups[x]? = some group) {g : Grid K} (hg : group[b]? = some g) :
    (sparse.matrix x (b + 1)).AlikeCells g := by
  cases x with
  | zero =>
    rw [hdense.constants, Option.some.injEq] at hgroup
    rw [← hgroup, List.getElem?_map, Option.map_eq_some_iff] at hg
    obtain ⟨block, hblock, rfl⟩ := hg
    have hsquare := hp.matrices block (List.mem_of_getElem? hblock) _ List.mem_cons_self
    refine (hsparse.constant b block hblock).alikeCells hsquare.shape fun i j hi hj => ?_
    obtain ⟨hrows, hcols⟩ := Prod.mk.inj hsquare.shape
    have hentry := block.constant.entry?_eq_some ⟨hrows ▸ hi, hcols ▸ hj⟩
    rw [Grid.value_eq_of_some hentry]
    refine Grid.value_eq_of_some ?_
    rw [Grid.entry?_map, hentry, Option.map_some]
  | succ k =>
    have hk : k < p.variableCount := by
      have hx := (List.getElem?_eq_some_iff.1 hgroup).1
      have hcount := hdense.count
      omega
    obtain ⟨group', hgroup', hmatrices⟩ := hdense.coefficients k hk
    rw [hgroup, Option.some.injEq] at hgroup'
    subst hgroup'
    obtain ⟨hb, rfl⟩ := List.getElem?_eq_some_iff.1 hg
    have hb' : b < p.blocks.length := hmatrices.length_eq ▸ hb
    have hm := hmatrices.get hb' hb
    simp only [List.get_eq_getElem] at hm
    have hmem : group[b] ∈ p.blocks[b].matrices :=
      List.mem_cons_of_mem _ (List.mem_of_getElem? hm)
    refine (hsparse.coefficient b _ (List.getElem?_eq_getElem hb') k _ hm).alikeCells ?_
      fun _ _ _ _ => rfl
    exact (hp.matrices _ (List.getElem_mem hb') _ hmem).shape

end Problem

/-! ## The round trip -/

section Newlines
variable {F : Set K} (hunbroken : ∀ v ∈ F, '\n' ∉ (Scalar.fileText v).toList)
include hunbroken

theorem newline_not_mem_rowLine {row : List K} (hrow : ∀ v ∈ row, v ∈ F) :
    '\n' ∉ (rowLine row).toList := by
  have hlist := newline_not_mem_intercalate fun v hv => hunbroken v (hrow v hv)
  unfold rowLine
  rw [String.toList_append, String.toList_append, List.mem_append, List.mem_append]
  rintro ((hc | hc) | hc)
  · simp at hc
  · exact hlist hc
  · simp at hc

theorem newline_not_mem_matrixLines {n : Nat} {g : Grid K} (hg : IsLegibleGrid F n g) :
    ∀ line ∈ matrixLines g, '\n' ∉ line.toList := by
  rw [matrixLines_eq]
  simp only [List.forall_mem_append, List.forall_mem_singleton]
  refine ⟨⟨by simp, fun line hline => ?_⟩, by simp⟩
  obtain ⟨row, hrow, hcomma⟩ := exists_of_mem_right (forall₂_separated _) hline
  obtain ⟨row, hmem, rfl⟩ := List.mem_map.1 hrow
  have hplain := newline_not_mem_rowLine hunbroken (hg.2 row hmem)
  rcases hcomma with rfl | rfl
  · exact hplain
  · rw [String.toList_append, List.mem_append]
    exact fun hc => hc.elim hplain (by simp)

theorem newline_not_mem_groupLines {matrices : List (Grid K)}
    (hmatrices : ∀ g ∈ matrices, IsLegibleGrid F g.rows g) :
    ∀ line ∈ groupLines matrices, '\n' ∉ line.toList := by
  unfold groupLines
  simp only [List.forall_mem_append, List.forall_mem_singleton, List.mem_flatMap]
  refine ⟨⟨by simp, ?_⟩, by simp⟩
  rintro line ⟨g, hg, hline⟩
  exact newline_not_mem_matrixLines hunbroken (hmatrices g hg) line hline

end Newlines

/-- A dense file is read back. Read `F` as the finite numbers, and suppose that no two of them have
one text, and that no text has a comma, a blank, a brace or a newline. The file of a problem with
numbers of `F` is written, and what is read from it describes the problem. Of a symmetric problem
its matrices are those that are read from the sparse file. -/
theorem read_renderDense [LawfulZeros K] {F : Set K}
    (hF : LegibleNumbers F [',', ' ', '\n', '\x7b', '\x7d']) {p : NumericProblem Grid K}
    (hp : p.SquareIn F) :
    ∃ text file, renderDense p none = .ok text ∧
      (DenseFile.reader (numberOf F)).readText? text = some file ∧
      file.Describes p ∧
      (p.IsSymmetric → ∃ sparseText sparse, renderSparse p none = .ok sparseText ∧
        (SparseFile.reader (numberOf F)).readText? sparseText = some sparse ∧
        sparse.objective = file.objective ∧ sparse.sizes = file.sizes ∧
        ∀ x group, file.groups[x]? = some group → ∀ b g, group[b]? = some g →
          (sparse.matrix x (b + 1)).AlikeCells g) := by
  have hunbroken : ∀ v ∈ F, '\n' ∉ (Scalar.fileText v).toList := fun v hv =>
    hF.unmarked v hv _ (by simp)
  have hunmarked : ∀ v ∈ F, ∀ c ∈ [',', ' ', '\x7b', '\x7d'], c ∉ (Scalar.fileText v).toList := by
    have hfewer : [',', ' ', '\x7b', '\x7d'] ⊆ [',', ' ', '\n', '\x7b', '\x7d'] := by decide
    exact fun v hv c hc => hF.unmarked v hv c (hfewer hc)
  obtain ⟨groups, hlines, hdescribes⟩ := exists_denseLines hp.complete none
  have hgroups : ∀ group ∈ groups,
      group.map Grid.rows = p.blockSizes ∧ ∀ g ∈ group, IsLegibleGrid F g.rows g :=
    fun group hgroup => legible_of_mem_groups hF.neg_mem hp hdescribes hgroup
  have hnewlines : ∀ line ∈ headerLines p ++ groups.flatMap groupLines, '\n' ∉ line.toList := by
    rw [List.forall_mem_append]
    refine ⟨newline_not_mem_headerLines fun v hv => hunbroken v (hp.objective v hv), ?_⟩
    intro line hline
    obtain ⟨group, hgroup, hline⟩ := List.mem_flatMap.1 hline
    exact newline_not_mem_groupLines hunbroken (hgroups group hgroup).2 line hline
  have hread := run_reader_dense hF.readsNumber hunmarked hp.objective hdescribes.count hgroups
  refine ⟨_, _, congrArg (unlines <$> ·) hlines, readText?_unlines hnewlines hread, hdescribes,
    fun hsymmetric => ?_⟩
  have hplain : LegibleNumbers F [',', ' ', '\n'] := hF.mono (by decide)
  obtain ⟨sparseText, hwritten, -, hsparse⟩ := exists_readText?_renderSparse hplain hp
  exact ⟨sparseText, _, hwritten, hsparse, rfl, rfl, fun x group hgroup b g hg =>
    alikeCells_of_describes hp hdescribes (describes_entries hp hsymmetric) hgroup hg⟩

/-- Symmetric blocks of two rows, of none and of one row. The constant of the first has a zero
off the diagonal, which the file has with the other sign. -/
theorem read_renderDense_of_three_blocks :
    let numbers : List Float := [0, -0, 1, -1, 2.5, -2.5]
    let F : Set Float := {v | ∃ u ∈ numbers, u = v}
    let two (a b c : Float) : Grid Float := ⟨2, 2, #[a, b, b, c], rfl⟩
    let one (a : Float) : Grid Float := ⟨1, 1, #[a], rfl⟩
    let empty : Grid Float := ⟨0, 0, #[], rfl⟩
    let p : NumericProblem Grid Float :=
      ⟨[1, -2.5], [⟨[two 1 2.5 0, two 0 (-0) (-1)], two 2.5 0 1⟩, ⟨[empty, empty], empty⟩,
        ⟨[one 0, one (-2.5)], one (-1)⟩]⟩
    LegibleNumbers F [',', ' ', '\n', '\x7b', '\x7d'] ∧ p.SquareIn F ∧ p.IsSymmetric ∧
    ∃ text file, renderDense p none = .ok text ∧
      (DenseFile.reader (numberOf F)).readText? text = some file ∧
      file.Describes p ∧
      ∃ sparseText sparse, renderSparse p none = .ok sparseText ∧
        (SparseFile.reader (numberOf F)).readText? sparseText = some sparse ∧
        sparse.objective = file.objective ∧ sparse.sizes = file.sizes ∧
        ∀ x group, file.groups[x]? = some group → ∀ b g, group[b]? = some g →
          (sparse.matrix x (b + 1)).AlikeCells g := by
  intro numbers F two one empty p
  have hF : LegibleNumbers F [',', ' ', '\n', '\x7b', '\x7d'] :=
    legibleNumbers_of_list (by decide +kernel) (by decide +kernel) (by decide +kernel)
  have hmatrices : ∀ block ∈ p.blocks, ∀ m ∈ block.matrices,
      m.shape = (block.shape.1, block.shape.1) ∧
      ∀ i < block.shape.1, ∀ j < block.shape.1,
        (∃ u ∈ numbers, u = value m i j) ∧
        (value m i j = value m j i ∨ (value m i j == 0) = true ∧ (value m j i == 0) = true) := by
    decide +kernel
  have hp : p.SquareIn F := by
    refine ⟨?_, ?_, fun block hblock m hm => ?_⟩
    · show ∀ v ∈ ([1, -2.5] : List Float), ∃ u ∈ numbers, u = v
      decide +kernel
    · show ∀ block ∈ p.blocks, block.coefficients.length = 2
      decide +kernel
    · obtain ⟨hshape, hvalues⟩ := hmatrices block hblock m hm
      exact ⟨trivial, hshape, fun i j hi hj => (hvalues i hi j hj).1⟩
  have hsymmetric : p.IsSymmetric := fun block hblock m hm i j hi hj =>
    ((hmatrices block hblock m hm).2 i hi j hj).2
  obtain ⟨text, file, hwritten, hread, hdescribes, hsparse⟩ := read_renderDense hF hp
  exact ⟨hF, hp, hsymmetric, text, file, hwritten, hread, hdescribes, hsparse hsymmetric⟩

end Sdpa

end Semidefinite
