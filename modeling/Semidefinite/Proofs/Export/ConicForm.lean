import Mathlib.Algebra.BigOperators.Fin
import Mathlib.Algebra.BigOperators.Group.Finset.Basic
import Mathlib.Algebra.Ring.Rat
import Semidefinite.Proofs.Export.Bounds

/-!
# The conic form says what the problem says

A block of `n` rows is flattened column after column: the entry in the cell `(i, j)`
goes to row `i + j * n`, and each of the `n * n` rows comes from one cell
(`existsUnique_cell_of_row`). So the square matrix is found again in a column
(`unflatten`), and what is left of `h` once a combination of the columns is taken away
is the value of the pencil (`Flattens.slack_eq`). A problem whose blocks are square always
has a conic form, and it encodes every entry once (`ofNumeric_encodes`).
-/

namespace Semidefinite

open Storage

variable {K : Type} [Scalar K]

/-- The matrix `C₀ + Σ xₖ · Cₖ`, whose numbers are those that `number` gives. -/
def Pencil.valueBy {R : Type} [CommRing R] (number : K → R) (p : Pencil Grid K) (x : Nat → R) :
    Grid R :=
  Grid.tabulate p.constant.rows p.constant.cols fun i j =>
    number (p.constant.entry i j) +
      ∑ k : Fin p.coefficients.length, x k * number (value p.coefficients[k] i j)

namespace ConicProblem

theorem existsUnique_cell_of_row {n r : Nat} (h : r < n * n) :
    ∃! c : Cell, (c.row < n ∧ c.col < n) ∧ r = c.row + c.col * n := by
  refine ⟨⟨r % n, r / n⟩, ⟨⟨Grid.col_lt h, Grid.row_lt h⟩, (Nat.mod_add_div' r n).symm⟩, ?_⟩
  rintro ⟨i, j⟩ ⟨⟨hi, -⟩, hr⟩
  have hindex : j * n + i = r / n * n + r % n := by
    rw [Nat.div_add_mod', hr, Nat.add_comm]
  obtain ⟨rfl, rfl⟩ := Grid.index_injective hi (Grid.col_lt h) hindex
  rfl

/-! ## What is left of the constant -/

section Exact
variable {R : Type} [CommRing R]

/-- The `n × n` matrix whose columns stand below each other in one column. -/
def unflatten (n : Nat) (column : Nat → R) : Grid R :=
  Grid.tabulate n n fun i j => column (i + j * n)

/-- The column `Σ xₖ · Gₖ`, whose numbers are those that `number` gives. -/
def combination (number : K → R) (g : Grid K) (x : Nat → R) (r : Nat) : R :=
  ∑ k : Fin g.cols, x k * number (value g r k)

/-- The matrix `h - Σ xₖ · Gₖ`, which is to be positive semidefinite. -/
def slack (number : K → R) (g h : Grid K) (x : Nat → R) : Except MatrixError (Grid R) :=
  Grid.zipWith? (fun v w => number v - w) h (unflatten h.rows (combination number g x))

end Exact

/-- The minus signs of the columns cancel the one before their sum. -/
theorem Flattens.slack_eq {R : Type} [CommRing R] {number : K → R}
    (hneg : ∀ v, number (-v) = -number v) {block : Pencil Grid K} {n : Nat} {g : Grid K}
    (h : Flattens block n g) (hconstant : block.constant.shape = (n, n)) (x : Nat → R) :
    slack number g block.constant x = .ok (block.valueBy number x) := by
  obtain ⟨rfl, hcols⟩ := Prod.mk.inj hconstant
  have hgcols : g.cols = block.coefficients.length := congrArg Prod.snd h.shape
  have hterm : ∀ (i : Fin block.constant.rows) (j : Fin block.constant.cols)
      (k : Fin block.coefficients.length), number (value g (i + j * block.constant.rows) k) =
        -number (value block.coefficients[k] i j) := by
    intro i j k
    have hentry := h.entry k _ (List.getElem?_eq_getElem k.isLt) i j i.isLt (hcols ▸ j.isLt)
    rw [Grid.value_eq_of_some hentry]
    exact hneg _
  unfold slack Grid.zipWith?
  rw [dif_pos ⟨rfl, hcols⟩]
  refine congrArg Except.ok <| congrArg (Grid.tabulate _ _) <| funext₂ fun i j => ?_
  calc number (block.constant.entry i j) - (unflatten block.constant.rows
          (combination number g x)).entry (Fin.cast rfl i) (Fin.cast hcols j)
      = number (block.constant.entry i j) -
          ∑ k : Fin g.cols, x k * number (value g (i + j * block.constant.rows) k) := by
        exact congrArg (number (block.constant.entry i j) - ·) (Grid.entry_tabulate ..)
    _ = number (block.constant.entry i j) - ∑ k : Fin block.coefficients.length,
          x k * number (value g (i + j * block.constant.rows) k) := by
        rw [Fintype.sum_equiv (finCongr hgcols)]
        exact fun _ => rfl
    _ = number (block.constant.entry i j) - ∑ k : Fin block.coefficients.length,
          -(x k * number (value block.coefficients[k] i j)) := by
        simp only [hterm, mul_neg]
    _ = _ := by rw [Finset.sum_neg_distrib, sub_neg_eq_add]

/-! ## Square blocks -/

/-- Every row of `g` is that of one cell, and there the column of a variable has the entry of its
matrix with the other sign. -/
structure EncodesBlock (block : Pencil Grid K) (n variableCount : Nat) (g : Grid K) : Prop where
  shape : g.shape = (n * n, variableCount)
  existsUnique_cell : ∀ r < n * n, ∃! c : Cell, (c.row < n ∧ c.col < n) ∧ r = c.row + c.col * n
  entry : ∀ k m, block.coefficients[k]? = some m → ∀ i j v, m.entry? i j = some v →
    g.entry? (i + j * n) k = some (-v)

/-- The objective, and for each block in order its constant and a `g` that encodes it. -/
structure Encodes (c : ConicProblem K) (p : NumericProblem Grid K) : Prop where
  objective : c.objective = p.objective
  hs : c.hs = p.blocks.map Pencil.constant
  gs : List.Forall₂ (fun block g => EncodesBlock block block.constant.rows p.variableCount g)
    p.blocks c.gs

variable {p : NumericProblem Grid K}

theorem exists_ofNumeric_of_square (hsquare : p.IsSquare)
    (hshapes : ∀ block ∈ p.blocks, ∀ m ∈ block.coefficients, m.shape = block.shape) :
    ∃ c, ofNumeric p = .ok c := by
  have hpencil : ∀ block ∈ p.blocks, ∃ g, ofPencil block = .ok g := by
    intro block hblock
    rw [exists_ofPencil_iff fun m hm => congrArg Prod.fst (hshapes block hblock m hm)]
    refine ⟨Pencil.cellsFit_of_square (hsquare block hblock), fun m hm => ?_⟩
    have hcols : m.cols = block.shape.2 := congrArg Prod.snd (hshapes block hblock m hm)
    rw [hcols, ← hsquare block hblock]
    exact Nat.le_refl _
  obtain ⟨gs, hgs⟩ := Except.exists_mapM_eq_ok hpencil
  exact ⟨_, Except.bind_eq_ok.2 ⟨gs, hgs, rfl⟩⟩

theorem Flattens.encodesBlock {block : Pencil Grid K} {n : Nat} {g : Grid K}
    (h : Flattens block n g) (hshapes : ∀ m ∈ block.coefficients, m.shape = (n, n)) :
    EncodesBlock block n block.coefficients.length g := by
  refine ⟨h.shape, fun r hr => existsUnique_cell_of_row hr, fun k m hm i j v hv => ?_⟩
  obtain ⟨hrows, hcols⟩ := Prod.mk.inj (hshapes m (List.mem_of_getElem? hm))
  obtain ⟨hi, hj⟩ := Grid.lt_of_entry?_eq_some hv
  rw [h.entry k m hm i j (hrows ▸ hi) (hcols ▸ hj), Grid.value_eq_of_some hv]

theorem zipWith_slack {R : Type} [CommRing R] {number : K → R}
    (hneg : ∀ v, number (-v) = -number v) {blocks : List (Pencil Grid K)} {gs : List (Grid K)}
    (hgs : List.Forall₂ (fun block g => Flattens block block.shape.1 g) blocks gs)
    (hsquare : ∀ block ∈ blocks, block.shape.1 = block.shape.2) (x : Nat → R) :
    List.zipWith (fun g h => slack number g h x) gs (blocks.map Pencil.constant) =
      blocks.map fun block => .ok (block.valueBy number x) := by
  induction hgs with
  | nil => rfl
  | @cons block g _ _ hflattens _ ih =>
    have hshape : block.constant.shape = (block.shape.1, block.shape.1) :=
      Prod.ext rfl (hsquare block List.mem_cons_self).symm
    rw [List.map_cons, List.zipWith_cons_cons, List.map_cons, hflattens.slack_eq hneg hshape,
      ih fun block hblock => hsquare block (List.mem_cons_of_mem _ hblock)]

/-- A problem whose blocks are square has a conic form. It says every entry of every block once, and
in exact arithmetic `h` less any combination of the columns is the value of the block. -/
theorem ofNumeric_encodes (hcomplete : p.IsComplete) (hsquare : p.IsSquare)
    (hshapes : ∀ block ∈ p.blocks, ∀ m ∈ block.coefficients, m.shape = block.shape) :
    ∃ c, ofNumeric p = .ok c ∧ c.Encodes p ∧
      ∀ {R : Type} [CommRing R] (number : K → R), (∀ v, number (-v) = -number v) →
        ∀ x : Nat → R, List.zipWith (fun g h => slack number g h x) c.gs c.hs =
          p.blocks.map fun block => .ok (block.valueBy number x) := by
  obtain ⟨c, hc⟩ := exists_ofNumeric_of_square hsquare hshapes
  obtain ⟨hobjective, hhs, -, hgs⟩ := covers_of_ofNumeric hsquare hc
  refine ⟨c, hc, ⟨hobjective, hhs, ?_⟩, fun number hneg x => ?_⟩
  · have hblocks := (List.forall₂_and_left p.blocks c.gs).2 ⟨fun block hblock => hblock, hgs⟩
    refine hblocks.imp fun block g ⟨hblock, hflattens⟩ => ?_
    have hencodes := hflattens.encodesBlock fun m hm =>
      (hshapes block hblock m hm).trans (Prod.ext rfl (hsquare block hblock).symm)
    rwa [hcomplete block hblock] at hencodes
  · rw [hhs]
    exact zipWith_slack hneg hgs hsquare x

/-- An empty block beside one of two rows, whose matrices are not symmetric. -/
theorem ofNumeric_encodes_of_empty_block :
    let square (a b c d : ℚ) : Grid ℚ := ⟨2, 2, #[a, b, c, d], rfl⟩
    let empty : Grid ℚ := ⟨0, 0, #[], rfl⟩
    let p : NumericProblem Grid ℚ :=
      ⟨[1, -1], [⟨[empty, empty], empty⟩, ⟨[square 1 2 3 4, square 0 0 5 0], square 6 7 8 9⟩]⟩
    (p.IsComplete ∧ p.IsSquare ∧
      ∀ block ∈ p.blocks, ∀ m ∈ block.coefficients, m.shape = block.shape) ∧
    ∃ c, ofNumeric p = .ok c ∧ c.gs.map Grid.entries = [#[], #[-1, 0, -3, -5, -2, 0, -4, 0]] ∧
      c.Encodes p ∧ ∀ x : Nat → ℚ, List.zipWith (fun g h => slack id g h x) c.gs c.hs =
        p.blocks.map fun block => .ok (block.valueBy id x) := by
  intro square empty p
  have hcomplete : ∀ block ∈ p.blocks, block.coefficients.length = p.variableCount := by
    decide +kernel
  have hsquare : ∀ block ∈ p.blocks, block.shape.1 = block.shape.2 := by
    decide +kernel
  have hshapes : ∀ block ∈ p.blocks, ∀ m ∈ block.coefficients, m.shape = block.shape := by
    decide +kernel
  have hentries : (ofNumeric p).map (fun c => c.gs.map Grid.entries) =
      .ok [#[], #[-1, 0, -3, -5, -2, 0, -4, 0]] := by
    decide +kernel
  obtain ⟨c, hc, hencodes, hslack⟩ := ofNumeric_encodes hcomplete hsquare hshapes
  rw [hc] at hentries
  exact ⟨⟨hcomplete, hsquare, hshapes⟩, c, hc, Except.ok.inj hentries, hencodes,
    fun x => hslack id (fun _ => rfl) x⟩

end ConicProblem

end Semidefinite
