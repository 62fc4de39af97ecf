import Semidefinite.Proofs.Expr.Value
import Semidefinite.Proofs.Lmi.Operand

/-!
# Values of canonical matrices

Under an assignment of the symbols a matrix has a value at every position, zero
outside. The canonical matrix of an inequality has the value of the greater side
less that of the lesser one (`canonicalMatrix_eq_ok`), whichever way the sides
are given.
-/

namespace Semidefinite

variable (x : Symbol → ℚ)

/-- The value at a position, zero outside the matrix. -/
def SymMatrix.valueAt (m : SymMatrix ℚ) (i j : Nat) : ℚ :=
  ((m.entry? i j).map (Expr.eval x)).getD 0

namespace BlockMatrix

def valueAt (m : BlockMatrix ℚ) (i j : Nat) : ℚ :=
  SymMatrix.valueAt x m.toDense i j

theorem valueAt_negate (m : BlockMatrix ℚ) (i j : Nat) :
    m.negate.valueAt x i j = -m.valueAt x i j := by
  have hentry : Grid.entry? (SymMatrix.negate m.toDense) i j =
      (Grid.entry? m.toDense i j).map Expr.negate := Grid.entry?_map _ _ i j
  rw [valueAt, valueAt, toDense_negate, SymMatrix.valueAt, SymMatrix.valueAt, hentry]
  cases Grid.entry? m.toDense i j with
  | none => simp
  | some e => simp [Expr.eval_negate]

/-- A difference of matrices of one shape has that shape and the difference of the values. -/
theorem difference_eq_ok {left right d : BlockMatrix ℚ} (hshape : left.shape = right.shape)
    (h : left.difference right = .ok d) :
    d.shape = left.shape ∧
      ∀ i j, d.valueAt x i j = left.valueAt x i j - right.valueAt x i j := by
  obtain ⟨d', hd, hdense, -⟩ := difference_of_shape hshape (haveRoom_of_difference hshape h)
  obtain rfl : d' = d := Except.ok.inj (hd.symm.trans h)
  refine ⟨shape_of_toDense_eq_minus hdense, fun i j => ?_⟩
  · rw [valueAt, valueAt, valueAt, hdense, SymMatrix.valueAt, SymMatrix.valueAt, SymMatrix.valueAt,
      SymMatrix.entry?_minus]
    by_cases hin : i < Grid.rows left.toDense ∧ j < Grid.cols left.toDense
    · have hin' : i < Grid.rows right.toDense ∧ j < Grid.cols right.toDense := by
        rwa [rows_toDense, cols_toDense, ← hshape, ← rows_toDense, ← cols_toDense]
      rw [Grid.entry?_eq_some _ hin, Grid.entry?_eq_some _ hin']
      exact Expr.eval_sub x _ _
    · have hin' : ¬ (i < Grid.rows right.toDense ∧ j < Grid.cols right.toDense) := by
        rwa [rows_toDense, cols_toDense, ← hshape, ← rows_toDense, ← cols_toDense]
      rw [Grid.entry?_eq_none _ hin, Grid.entry?_eq_none _ hin']
      simp

end BlockMatrix

/-! ## Operands -/

namespace Operand

/-- The value of an operand at a position; zero has the value zero everywhere. -/
def valueAt : Operand ℚ → Nat → Nat → ℚ
  | zero, _, _ => 0
  | matrix m, i, j => m.valueAt x i j

end Operand

namespace Lmi

/-- The shape of the matrix on the left, or else of that on the right. -/
def shape (l : Lmi ℚ) : Nat × Nat :=
  ((l.lhs.matrix?.or l.rhs.matrix?).map BlockMatrix.shape).getD (0, 0)

/-- The greater side less the lesser one, in values. -/
def differenceAt (l : Lmi ℚ) : Grid ℚ :=
  Grid.tabulate l.shape.1 l.shape.2 fun i j =>
    l.greater.valueAt x i j - l.lesser.valueAt x i j

variable {x}

theorem greater_lesser_of_checked {l : Lmi ℚ} (hchecked : checkOperands l.lhs l.rhs = .ok ()) :
    (∃ a b, l.greater = .matrix a ∧ l.lesser = .matrix b ∧ a.shape = b.shape ∧ a.shape = l.shape) ∨
    (∃ a, l.greater = .matrix a ∧ l.lesser = .zero ∧ a.shape = l.shape) ∨
    (∃ b, l.greater = .zero ∧ l.lesser = .matrix b ∧ b.shape = l.shape) := by
  obtain ⟨lhs, rhs, kind⟩ := l
  simp only [greater, lesser, shape]
  rcases checkOperands_eq_ok hchecked with ⟨a, b, ha, hb, hshape⟩ | ⟨a, ha, hb⟩ | ⟨b, ha, hb⟩
  · obtain rfl : lhs = .matrix a := ha
    obtain rfl : rhs = .matrix b := hb
    cases kind.isPositive
    · exact .inl ⟨b, a, rfl, rfl, hshape.symm, hshape.symm⟩
    · exact .inl ⟨a, b, rfl, rfl, hshape, rfl⟩
  · obtain rfl : lhs = .matrix a := ha
    obtain rfl : rhs = .zero := hb
    cases kind.isPositive
    · exact .inr (.inr ⟨a, rfl, rfl, rfl⟩)
    · exact .inr (.inl ⟨a, rfl, rfl, rfl⟩)
  · obtain rfl : lhs = .zero := ha
    obtain rfl : rhs = .matrix b := hb
    cases kind.isPositive
    · exact .inr (.inl ⟨b, rfl, rfl, rfl⟩)
    · exact .inr (.inr ⟨b, rfl, rfl, rfl⟩)

/-- The canonical matrix has the shape of the sides and the difference of their values. -/
theorem canonicalMatrix_eq_ok {l : Lmi ℚ} (hchecked : checkOperands l.lhs l.rhs = .ok ())
    {m : BlockMatrix ℚ} (h : l.canonicalMatrix = .ok m) :
    m.shape = l.shape ∧
      ∀ i j, m.valueAt x i j = l.greater.valueAt x i j - l.lesser.valueAt x i j := by
  unfold canonicalMatrix at h
  rcases greater_lesser_of_checked hchecked with
    ⟨a, b, ha, hb, hab, hshape⟩ | ⟨a, ha, hb, hshape⟩ | ⟨b, ha, hb, hshape⟩
  · rw [ha, hb] at h ⊢
    obtain ⟨hd, hvalue⟩ := BlockMatrix.difference_eq_ok x hab h
    exact ⟨hd.trans hshape, hvalue⟩
  · rw [ha, hb] at h ⊢
    cases h
    exact ⟨hshape, fun i j => (sub_zero _).symm⟩
  · rw [ha, hb] at h ⊢
    cases h
    refine ⟨b.shape_negate.trans hshape, fun i j => ?_⟩
    rw [BlockMatrix.valueAt_negate]
    exact (zero_sub _).symm

/-- Written out, the canonical matrix is the difference of the sides. -/
theorem map_eval_canonicalMatrix {l : Lmi ℚ} (hchecked : checkOperands l.lhs l.rhs = .ok ())
    {m : BlockMatrix ℚ} (h : l.canonicalMatrix = .ok m) :
    Grid.map (Expr.eval x) m.toDense = l.differenceAt x := by
  obtain ⟨hshape, hvalue⟩ := canonicalMatrix_eq_ok (x := x) hchecked h
  have hrows : Grid.rows m.toDense = l.shape.1 := by rw [m.rows_toDense, hshape]
  have hcols : Grid.cols m.toDense = l.shape.2 := by rw [m.cols_toDense, hshape]
  refine Grid.ext_entry? hrows hcols fun i j hi hj => ?_
  have hin : i < l.shape.1 ∧ j < l.shape.2 := ⟨hrows ▸ hi, hcols ▸ hj⟩
  have hentry := Grid.entry?_eq_some m.toDense (i := i) (j := j) ⟨hi, hj⟩
  rw [differenceAt, Grid.entry?_tabulate _ hin, ← hvalue, BlockMatrix.valueAt, SymMatrix.valueAt,
    Grid.entry?_map, hentry]
  rfl

end Lmi

end Semidefinite
