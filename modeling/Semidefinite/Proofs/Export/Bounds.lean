import Semidefinite.Export.Conic
import Semidefinite.Proofs.Doubles
import Semidefinite.Proofs.Export.DenseRoundTrip
import Semidefinite.Proofs.Export.Numbers
import Semidefinite.Proofs.Storage.Backends

/-!
# Exporters stay inside the blocks

The exporters size a block by its rows. Of square blocks they give every number on
and above the diagonal its place inside the block (`Sdpa.SparseCovers`,
`Sdpa.DenseCovers`, `ConicProblem.Covers`), and nothing is read that is not there.
Where blocks are taken over as they are, one may have fewer columns than rows, or more
rows than a square can have in memory, and exactly there the conic form faults
(`exists_ofNumeric_iff`); or it has more columns, and then the text names some that the
size of the block leaves out.
-/

namespace Semidefinite

open Storage

variable {K : Type} [Scalar K]

/-! ## Square blocks -/

section Square
variable {S : Type → Type} [Storage S]

def NumericProblem.IsSquare (p : NumericProblem S K) : Prop :=
  ∀ block ∈ p.blocks, block.shape.1 = block.shape.2

theorem NumericProblem.IsListed.shape_eq {p : NumericProblem S K} (h : p.IsListed)
    (hsquare : p.IsSquare) : ∀ block ∈ p.blocks, ∀ m ∈ block.matrices,
      Storage.shape m = (block.shape.1, block.shape.1) := by
  intro block hblock m hm
  rw [h.shapes block hblock m hm]
  exact Prod.ext rfl (hsquare block hblock).symm

/-- Each block that the canonical matrices are cut into has as many columns as rows. -/
def Problem.IsCutSquare (p : Problem K) (cutting : Cutting) : Prop :=
  ∀ blocks, canonicalBlocks p.lmis cutting = .ok blocks → ∀ b ∈ blocks, Grid.rows b = Grid.cols b

theorem Problem.IsCutSquare.isSquare [FaithfulStorage S K] {p : Problem K} {sense : Sense}
    {cutting : Cutting} (h : p.IsCutSquare cutting) {supply : NonceSupply}
    {numbers : NumericProblem S K}
    (hnumeric : ((p.numeric S sense cutting).run supply).1 = .ok numbers) : numbers.IsSquare := by
  obtain ⟨-, -, blocks, hblocks, hshapes⟩ := isListed_numeric hnumeric
  intro pencil hpencil
  obtain ⟨m, hm, hshape⟩ := exists_of_mem_right hshapes hpencil
  rw [hshape]
  exact h blocks hblocks m hm

end Square

/-! ## Text files -/

namespace Sdpa

section Sparse
variable {S : Type → Type} [Storage S] {p : NumericProblem S K}

/-- The text lists entries that are in range, among them every number other than zero on or above
the diagonal of a matrix. -/
structure SparseCovers (p : NumericProblem S K) (comment : Option String) (text : String) :
    Prop where
  text_eq : text =
    Text.unlines (commentLines comment ++ headerLines p ++ (entries p).map Entry.line)
  inRange : ∀ e ∈ entries p, e.InRange p.variableCount p.blockSizes
  complete : ∀ b block, p.blocks[b]? = some block → ∀ x m, block.matrices[x]? = some m →
    ∀ i j, i ≤ j → j < block.shape.1 → (value m i j == 0) = false →
      Entry.ofListed x (b + 1) (⟨i, j⟩, signed x (value m i j)) ∈ entries p

theorem exists_renderSparse (h : p.IsListed) (comment : Option String) :
    ∃ text, renderSparse p comment = .ok text :=
  ⟨_, congrArg (Text.unlines <$> ·) (sparseLines_eq_ok h.complete comment)⟩

theorem sparseCovers_of_render [LawfulZero K] (h : p.IsListed) (hsquare : p.IsSquare)
    {comment : Option String} {text : String} (htext : renderSparse p comment = .ok text) :
    SparseCovers p comment text := by
  unfold renderSparse at htext
  rw [sparseLines_eq_ok h.complete] at htext
  cases htext
  refine ⟨rfl, fun e he => inRange_of_mem_entries h.lists (h.shape_eq hsquare) he, ?_⟩
  intro b block hblock x m hm i j hle hj hvalue
  have hblockMem := List.mem_of_getElem? hblock
  have hmMem := List.mem_of_getElem? hm
  have hx : x ≤ p.variableCount := by
    have hlength := (List.getElem?_eq_some_iff.1 hm).1
    rw [Pencil.matrices, List.length_cons, h.complete block hblockMem] at hlength
    omega
  refine mem_entries_of_value hx hblock hm (h.lists block hblockMem m hmMem) hle ?_ hvalue
  unfold Inside
  rw [h.shape_eq hsquare block hblockMem m hmMem]
  exact ⟨Nat.lt_of_le_of_lt hle hj, hj⟩

end Sparse

section Dense
variable {p : NumericProblem Grid K}

/-- The text writes out the matrices of the problem, and these have the sizes of the blocks. -/
def DenseCovers (p : NumericProblem Grid K) (comment : Option String) (text : String) : Prop :=
  ∃ groups,
    text = Text.unlines (commentLines comment ++ headerLines p ++ groups.flatMap groupLines) ∧
    DenseFile.Describes ⟨p.objective, p.blockSizes, groups⟩ p ∧
    ∀ group ∈ groups, List.Forall₂ (fun n g => Grid.shape g = (n, n)) p.blockSizes group

theorem exists_renderDense (h : p.IsComplete) (comment : Option String) :
    ∃ text, renderDense p comment = .ok text := by
  obtain ⟨groups, hlines, -⟩ := exists_denseLines h comment
  exact ⟨_, congrArg (Text.unlines <$> ·) hlines⟩

theorem denseCovers_of_render (h : p.IsListed) (hsquare : p.IsSquare) {comment : Option String}
    {text : String} (htext : renderDense p comment = .ok text) : DenseCovers p comment text := by
  obtain ⟨groups, hlines, hdescribes⟩ := exists_denseLines h.complete comment
  unfold renderDense at htext
  rw [hlines] at htext
  cases htext
  refine ⟨groups, rfl, hdescribes, fun group hgroup => ?_⟩
  have hshape := h.shape_eq hsquare
  unfold NumericProblem.blockSizes
  rw [List.forall₂_map_left_iff]
  refine hdescribes.forall₂_of_mem (fun block hblock => ?_) (fun block hblock m hm => ?_) hgroup
  · have hconstant := hshape block hblock block.constant List.mem_cons_self
    exact hconstant
  · exact hshape block hblock m (List.mem_cons_of_mem _ hm)

end Dense

end Sdpa

/-! ## The conic form -/

theorem Grid.value_congr {g h : Grid K} {i j i' j' : Nat} (heq : g.entry? i j = h.entry? i' j') :
    value g i j = value h i' j' := by
  unfold value
  rw [show Storage.get g i j = g.read i j from rfl,
    show Storage.get h i' j' = h.read i' j' from rfl, read, read, heq]
  cases h.entry? i' j' <;> rfl

/-- The cells of the square that has the rows of the block are counted in a word. -/
def Pencil.CellsFit (block : Pencil Grid K) : Prop :=
  Grid.Fits UInt64.size (block.constant.rows * block.constant.cols) block.constant.rows
    block.constant.rows

omit [Scalar K] in
theorem Pencil.cellsFit_of_square {block : Pencil Grid K}
    (h : block.constant.rows = block.constant.cols) : block.CellsFit :=
  Grid.fits_of_le (Grid.rows_le_of_square h) (Grid.rows_le_of_square h)

namespace ConicProblem

/-- Column `k` has the negated entries of the matrix of variable `k`, column after column. -/
structure Flattens (block : Pencil Grid K) (n : Nat) (g : Grid K) : Prop where
  shape : g.shape = (n * n, block.coefficients.length)
  entry : ∀ k m, block.coefficients[k]? = some m → ∀ i j, i < n → j < n →
    g.entry? (i + j * n) k = some (-value m i j)

/-- A square constant for each block, and a column for each of its coefficient matrices. -/
structure Covers (c : ConicProblem K) (p : NumericProblem Grid K) : Prop where
  objective : c.objective = p.objective
  hs : c.hs = p.blocks.map Pencil.constant
  square : ∀ h ∈ c.hs, h.cols = h.rows
  gs : List.Forall₂ (fun block g => Flattens block block.shape.1 g) p.blocks c.gs

theorem ofPencil_of_cellsFit {block : Pencil Grid K} (h : block.CellsFit) :
    ofPencil block = (flattenColumns block.constant.rows ·) <$> block.coefficients.mapM fun m =>
      (m.window 0 block.constant.rows 0 block.constant.rows).mapError
        fun cell => .denseCell cell.row cell.col m.rows m.cols :=
  if_pos h

theorem ofPencil_of_not_cellsFit {block : Pencil Grid K} (h : ¬ block.CellsFit) :
    ofPencil block = .error (.noRoom block.constant.rows block.constant.rows) :=
  if_neg h

theorem exists_ofPencil_iff {block : Pencil Grid K}
    (hrows : ∀ m ∈ block.coefficients, m.rows = block.constant.rows) :
    (∃ g, ofPencil block = .ok g) ↔
      block.CellsFit ∧ ∀ m ∈ block.coefficients, block.constant.rows ≤ m.cols := by
  have hwindow : ∀ m ∈ block.coefficients,
      ((∃ w, (m.window 0 block.constant.rows 0 block.constant.rows).mapError
        (fun cell => Fault.denseCell cell.row cell.col m.rows m.cols) = .ok w) ↔
          block.constant.rows ≤ m.cols) := by
    intro m hm
    simp only [Except.mapError_eq_ok]
    exact Grid.exists_window_iff (hrows m hm)
  rw [← forall₂_congr hwindow, ← Except.exists_mapM_iff]
  by_cases hfit : block.CellsFit
  · rw [ofPencil_of_cellsFit hfit, and_iff_right hfit]
    constructor
    · rintro ⟨g, hg⟩
      obtain ⟨squares, hsquares, -⟩ := Except.map_eq_ok.1 hg
      exact ⟨squares, hsquares⟩
    · rintro ⟨squares, hsquares⟩
      exact ⟨_, Except.map_eq_ok.2 ⟨squares, hsquares, rfl⟩⟩
  · rw [ofPencil_of_not_cellsFit hfit]
    exact iff_of_false nofun fun h => hfit h.1

theorem flattens_of_ofPencil {block : Pencil Grid K} {g : Grid K} (h : ofPencil block = .ok g) :
    Flattens block block.constant.rows g := by
  have hfit : block.CellsFit := by
    by_contra hnone
    rw [ofPencil_of_not_cellsFit hnone] at h
    cases h
  rw [ofPencil_of_cellsFit hfit] at h
  obtain ⟨squares, hsquares, rfl⟩ := Except.map_eq_ok.1 h
  have hparts := Except.forall₂_of_mapM_eq_ok hsquares
  have hlength := hparts.length_eq
  refine ⟨Prod.ext rfl hlength.symm, fun k m hm i j hi hj => ?_⟩
  obtain ⟨hk, rfl⟩ := List.getElem?_eq_some_iff.1 hm
  have hk' : k < squares.length := hlength ▸ hk
  have hwindow := hparts.get hk hk'
  simp only [List.get_eq_getElem] at hwindow
  obtain ⟨-, -, hread⟩ := Grid.window_eq_ok (Except.mapError_eq_ok.1 hwindow)
  have hrow : i + j * block.constant.rows < block.constant.rows * block.constant.rows := by
    rw [Nat.add_comm]
    exact Grid.index_lt hj hi
  have hmod : (i + j * block.constant.rows) % block.constant.rows = i := by
    rw [Nat.add_mul_mod_self_right, Nat.mod_eq_of_lt hi]
  have hdiv : (i + j * block.constant.rows) / block.constant.rows = j := by
    rw [Nat.add_mul_div_right _ _ (by omega), Nat.div_eq_of_lt hi, Nat.zero_add]
  have hcell := hread i j (by omega) (by omega)
  rw [Nat.zero_add, Nat.zero_add] at hcell
  rw [flattenColumns, Grid.entry?_tabulate _ ⟨hrow, hk'⟩]
  simp only [hmod, hdiv]
  exact congrArg (fun v => some (-v)) (Grid.value_congr hcell)

variable {p : NumericProblem Grid K}

/-- The rows of a block are flattened unless they are too many, or there is a variable and the
columns are fewer. -/
theorem exists_ofPencil_iff_of_mem (h : p.IsListed) {block : Pencil Grid K}
    (hblock : block ∈ p.blocks) :
    (∃ g, ofPencil block = .ok g) ↔
      block.CellsFit ∧ (p.variableCount = 0 ∨ block.shape.1 ≤ block.shape.2) := by
  have hshapes : ∀ m ∈ block.coefficients, m.shape = block.shape := fun m hm =>
    h.shapes block hblock m (List.mem_cons_of_mem _ hm)
  have hcols : ∀ m ∈ block.coefficients, m.cols = block.shape.2 := fun m hm =>
    congrArg Prod.snd (hshapes m hm)
  have hcount := h.complete block hblock
  rw [exists_ofPencil_iff fun m hm => congrArg Prod.fst (hshapes m hm)]
  refine and_congr_right' ?_
  cases hcoefficients : block.coefficients with
  | nil =>
    rw [hcoefficients, List.length_nil] at hcount
    simp [← hcount]
  | cons m rest =>
    have hne : p.variableCount ≠ 0 := by
      rw [← hcount, hcoefficients, List.length_cons]
      omega
    rw [hcoefficients] at hcols
    rw [or_iff_right hne]
    refine ⟨fun hall => ?_, fun hle m' hm' => ?_⟩
    · rw [← hcols m List.mem_cons_self]
      exact hall m List.mem_cons_self
    · rw [hcols m' hm']
      exact hle

/-- There is a conic form unless a block has too many rows, or there is a variable and a block with
fewer columns than rows. -/
theorem exists_ofNumeric_iff (h : p.IsListed) :
    (∃ c, ofNumeric p = .ok c) ↔
      ∀ block ∈ p.blocks, block.CellsFit ∧
        (p.variableCount = 0 ∨ block.shape.1 ≤ block.shape.2) := by
  have hpencil : ∀ block ∈ p.blocks, ((∃ g, ofPencil block = .ok g) ↔
      block.CellsFit ∧ (p.variableCount = 0 ∨ block.shape.1 ≤ block.shape.2)) :=
    fun block hblock => exists_ofPencil_iff_of_mem h hblock
  rw [← forall₂_congr hpencil, ← Except.exists_mapM_iff]
  unfold ofNumeric
  constructor
  · rintro ⟨c, hc⟩
    obtain ⟨gs, hgs, -⟩ := Except.bind_eq_ok.1 hc
    exact ⟨gs, hgs⟩
  · rintro ⟨gs, hgs⟩
    exact ⟨_, Except.bind_eq_ok.2 ⟨gs, hgs, rfl⟩⟩

theorem covers_of_ofNumeric (hsquare : p.IsSquare) {c : ConicProblem K}
    (h : ofNumeric p = .ok c) : c.Covers p := by
  unfold ofNumeric at h
  obtain ⟨gs, hgs, h⟩ := Except.bind_eq_ok.1 h
  cases h
  refine ⟨rfl, rfl, fun g hg => ?_,
    (Except.forall₂_of_mapM_eq_ok hgs).imp fun _ _ => flattens_of_ofPencil⟩
  obtain ⟨block, hblock, rfl⟩ := List.mem_map.1 hg
  exact (hsquare block hblock).symm

end ConicProblem

/-! ## Exporting a problem -/

section Export
variable {p : Problem K} {config : ExportConfig}

theorem ExportConfig.numeric_eq_ok {S : Type → Type} [Storage S] {supply : NonceSupply}
    {numbers : NumericProblem S K} : ((config.numeric S p).run supply).1 = .ok numbers ↔
      ((p.numeric S config.sense config.cutting).run supply).1 = .ok numbers :=
  Lowering.result_mapError_eq_ok

/-- The objective and the inequalities are within the limits of words, and there is room for the
matrices that are to be cut. -/
structure Problem.WithinLimits (cutting : Cutting) (p : Problem K) : Prop where
  objective : p.objective.degree < UInt32.size
  lmis : ∀ l ∈ p.lmis, l.WithinLimits
  room : ∀ l ∈ p.lmis, l.HasRoomFor cutting

variable [LawfulZeros K]

section Faults
variable (hchecked : ∀ l ∈ p.lmis, Lmi.checkOperands l.lhs l.rhs = .ok ())
  (hroom : ∀ l ∈ p.lmis, l.HasRoomFor config.cutting)
include hchecked hroom

theorem ExportConfig.neverFaults_numeric {S : Type → Type} [Storage S] [FaithfulStorage S K] :
    (config.numeric S p).NeverFaults :=
  (Problem.neverFaults_numeric hchecked hroom).mapError _

theorem neverFaults_of_rendered {S : Type → Type} [Storage S] [FaithfulStorage S K] {α : Type}
    {render : NumericProblem S K → Except Fault α}
    (hrender : ∀ numbers : NumericProblem S K, numbers.IsListed → ∃ a, render numbers = .ok a) :
    (config.numeric S p >>= fun numbers => Lowering.ofFault (render numbers)).NeverFaults := by
  refine (ExportConfig.neverFaults_numeric hchecked hroom).bind fun supply numbers after hrun => ?_
  have hnumeric := ExportConfig.numeric_eq_ok.1 (congrArg Prod.fst hrun)
  exact Lowering.neverFaults_ofFault (hrender numbers (Problem.isListed_numeric hnumeric).1)

theorem conic_fault_iff (supply : NonceSupply) :
    (∃ f, ((ConicProblem.ofProblem p config).run supply).1 = .error (.fault f)) ↔
      ∃ numbers, ((config.numeric Grid p).run supply).1 = .ok numbers ∧
        ∃ block ∈ numbers.blocks,
          ¬ block.CellsFit ∨ p.vars ≠ [] ∧ block.shape.2 < block.shape.1 := by
  have hrun : ∀ f, ((ConicProblem.ofProblem p config).run supply).1 = .error (.fault f) ↔
      ∃ numbers, ((config.numeric Grid p).run supply).1 = .ok numbers ∧
        ConicProblem.ofNumeric numbers = .error f := fun f =>
    Lowering.render_eq_fault (ExportConfig.neverFaults_numeric hchecked hroom)
  have hfault : ∀ numbers, ((config.numeric Grid p).run supply).1 = .ok numbers →
      ((∃ f, ConicProblem.ofNumeric numbers = .error f) ↔
        ∃ block ∈ numbers.blocks,
          ¬ block.CellsFit ∨ p.vars ≠ [] ∧ block.shape.2 < block.shape.1) := by
    intro numbers hnumbers
    obtain ⟨hlisted, hcount, -⟩ := Problem.isListed_numeric (ExportConfig.numeric_eq_ok.1 hnumbers)
    have hexists := ConicProblem.exists_ofNumeric_iff hlisted
    rw [hcount, List.length_eq_zero_iff] at hexists
    have herror : (∃ f, ConicProblem.ofNumeric numbers = .error f) ↔
        ¬ ∃ c, ConicProblem.ofNumeric numbers = .ok c := by
      cases ConicProblem.ofNumeric numbers <;> simp
    rw [herror, hexists]
    push Not
    simp only [imp_iff_not_or, ne_eq]
  simp only [hrun]
  constructor
  · rintro ⟨f, numbers, hnumbers, hf⟩
    exact ⟨numbers, hnumbers, (hfault numbers hnumbers).1 ⟨f, hf⟩⟩
  · rintro ⟨numbers, hnumbers, hblock⟩
    obtain ⟨f, hf⟩ := (hfault numbers hnumbers).2 hblock
    exact ⟨f, numbers, hnumbers, hf⟩

end Faults

end Export

end Semidefinite
