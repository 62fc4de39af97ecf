import Mathlib.Algebra.Order.BigOperators.Group.List
import Mathlib.Algebra.Order.Ring.Nat
import Semidefinite.Lmi.Basic

/-!
# Room for matrices

Writing blocks out takes a matrix of the summed shape, which fits or not
(`Grid.Fits`). Square blocks always fit: they hold an entry for each of their rows
(`Grid.fits_of_square`). Blocks with rows and no columns beside blocks with columns
and no rows may not, whatever little they hold.
-/

namespace Semidefinite

/-! ## Grids -/

namespace Grid

variable {α : Type} {limit held rows cols : Nat} {blocks : List (Grid α)}

theorem fits_of_le (hrows : rows ≤ held) (hcols : cols ≤ held) : Fits limit held rows cols :=
  .inl (Nat.max_le.2 ⟨hrows, hcols⟩)

/-- A square grid holds an entry for each of its rows. -/
theorem rows_le_of_square {g : Grid α} (h : g.rows = g.cols) : g.rows ≤ g.rows * g.cols := by
  rw [← h]
  exact Nat.le_mul_self g.rows

/-- Square blocks fit together, however many they are. -/
theorem fits_of_square (limit : Nat) (h : ∀ b ∈ blocks, b.rows = b.cols) :
    Fits limit (Grid.held blocks) (blocks.map Grid.rows).sum (blocks.map Grid.cols).sum := by
  have hcols : blocks.map Grid.cols = blocks.map Grid.rows :=
    List.map_congr_left fun b hb => (h b hb).symm
  have hle : (blocks.map Grid.rows).sum ≤ Grid.held blocks :=
    List.sum_le_sum fun b hb => rows_le_of_square (h b hb)
  rw [hcols]
  exact fits_of_le hle hle

theorem tabulate?_of_fits (f : Fin rows → Fin cols → α) (h : Fits entryLimit held rows cols) :
    tabulate? held rows cols f = .ok (tabulate rows cols f) :=
  if_pos h

theorem tabulate?_of_not_fits (f : Fin rows → Fin cols → α) (h : ¬ Fits entryLimit held rows cols) :
    tabulate? held rows cols f = .error (.noRoom rows cols) :=
  if_neg h

theorem tabulate?_eq_ok_iff {f : Fin rows → Fin cols → α} {g : Grid α} :
    tabulate? held rows cols f = .ok g ↔
      Fits entryLimit held rows cols ∧ g = tabulate rows cols f := by
  by_cases h : Fits entryLimit held rows cols
  · rw [tabulate?_of_fits f h]
    exact ⟨fun heq => ⟨h, (Except.ok.inj heq).symm⟩, fun heq => congrArg _ heq.2.symm⟩
  · rw [tabulate?_of_not_fits f h]
    exact ⟨nofun, fun heq => absurd heq.1 h⟩

theorem exists_tabulate?_iff {f : Fin rows → Fin cols → α} :
    (∃ g, tabulate? held rows cols f = .ok g) ↔ Fits entryLimit held rows cols := by
  simp only [tabulate?_eq_ok_iff, exists_and_left, exists_eq, and_true]

end Grid

/-! ## Matrices given by blocks -/

namespace BlockMatrix

variable {K : Type}

/-- The matrix is given whole, or its blocks fit together. -/
def HasRoom : BlockMatrix K → Prop
  | whole _ => True
  | blocks parts => Grid.Fits Grid.entryLimit (Grid.held parts) (parts.map Grid.rows).sum
      (parts.map Grid.cols).sum

/-- Both matrices carry blocks, of the same shapes. -/
def SharesLayout (left right : BlockMatrix K) : Prop :=
  ∃ ms ns, left = blocks ms ∧ right = blocks ns ∧ ms.map Grid.shape = ns.map Grid.shape

/-- Two matrices can be compared block by block or written out. -/
def HaveRoom (left right : BlockMatrix K) : Prop :=
  left.SharesLayout right ∨ left.HasRoom ∧ right.HasRoom

theorem hasRoom_congr {ms ns : List (SymMatrix K)}
    (h : ms.map Grid.shape = ns.map Grid.shape) : (blocks ms).HasRoom ↔ (blocks ns).HasRoom := by
  have hsum : ∀ f : Nat × Nat → Nat,
      (ms.map (f ∘ Grid.shape)).sum = (ns.map (f ∘ Grid.shape)).sum := by
    intro f
    rw [← List.map_map, h, List.map_map]
  have hheld : Grid.held ms = Grid.held ns := hsum fun shape => shape.1 * shape.2
  have hrows : (ms.map Grid.rows).sum = (ns.map Grid.rows).sum := hsum Prod.fst
  have hcols : (ms.map Grid.cols).sum = (ns.map Grid.cols).sum := hsum Prod.snd
  simp only [HasRoom, hheld, hrows, hcols]

theorem not_haveRoom_of_shapes {ms ns : List (SymMatrix K)}
    (hshapes : ms.map Grid.shape ≠ ns.map Grid.shape) (h : ¬ (blocks ms).HasRoom) :
    ¬ (blocks ms).HaveRoom (blocks ns) := by
  rintro (⟨ms', ns', hms, hns, hsame⟩ | ⟨hroom, -⟩)
  · cases hms
    cases hns
    exact hshapes hsame
  · exact h hroom

theorem hasRoom_whole (m : SymMatrix K) : (whole m).HasRoom :=
  trivial

variable [Scalar K] {m : BlockMatrix K}

theorem toDense?_of_hasRoom (h : m.HasRoom) : m.toDense? = .ok m.toDense := by
  cases m with
  | whole m => rfl
  | blocks parts => exact Grid.tabulate?_of_fits _ h

theorem toDense?_of_not_hasRoom (h : ¬ m.HasRoom) :
    m.toDense? = .error (.noRoom m.shape.1 m.shape.2) := by
  cases m with
  | whole m => exact absurd (hasRoom_whole m) h
  | blocks parts => exact Grid.tabulate?_of_not_fits _ h

theorem toDense?_eq_ok_iff {d : SymMatrix K} : m.toDense? = .ok d ↔ m.HasRoom ∧ d = m.toDense := by
  by_cases h : m.HasRoom
  · rw [toDense?_of_hasRoom h]
    exact ⟨fun heq => ⟨h, (Except.ok.inj heq).symm⟩, fun heq => congrArg _ heq.2.symm⟩
  · rw [toDense?_of_not_hasRoom h]
    exact ⟨nofun, fun heq => absurd heq.1 h⟩

end BlockMatrix

end Semidefinite
