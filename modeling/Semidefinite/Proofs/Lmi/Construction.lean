import Semidefinite.Proofs.Lmi.Reachable

/-!
# Which inequalities can be built

With the check of symmetry, `Lmi.make` accepts the operands that are symmetric and
fit each other, and no others. Symmetry is that of polynomials
(`Operand.isSymmetric_iff`): how the entries are written does not matter. Operands
that are refused are refused for the first reason, in the order of
`Operand.Refused` (`Lmi.make_exact`).
-/

namespace Semidefinite

/-! ## Symmetry of polynomials -/

namespace SymMatrix

noncomputable def polys (m : SymMatrix ℚ) : Grid (MvPolynomial Symbol ℚ) :=
  Grid.map Expr.poly m

theorem polyAt_eq (m : SymMatrix ℚ) (i j : Nat) : m.polyAt i j = (m.polys.entry? i j).getD 0 := by
  unfold polyAt polys
  rw [Grid.entry?_map]
  cases m.entry? i j with
  | none => exact Expr.poly_zero
  | some e => rfl

/-- A matrix is symmetric if it is square and its own transpose, as a matrix of polynomials. -/
theorem isSymmetric_iff_transpose {m : SymMatrix ℚ} :
    m.IsSymmetric ↔ Grid.rows m = Grid.cols m ∧ m.polys.transpose = m.polys := by
  constructor
  · rintro ⟨hsquare, hmirrored⟩
    refine ⟨hsquare, Grid.transpose_eq_iff.2 ⟨hsquare, fun i j => ?_⟩⟩
    have hij := hmirrored i j
    rw [polyAt_eq, polyAt_eq] at hij
    by_cases hin : i < m.polys.rows ∧ j < m.polys.cols
    · have hin' : j < m.polys.rows ∧ i < m.polys.cols := ⟨hsquare ▸ hin.2, hsquare ▸ hin.1⟩
      rw [Grid.entry?_eq_some _ hin, Grid.entry?_eq_some _ hin'] at hij ⊢
      exact congrArg some hij
    · have hin' : ¬ (j < m.polys.rows ∧ i < m.polys.cols) :=
        fun h => hin ⟨hsquare ▸ h.2, hsquare ▸ h.1⟩
      rw [Grid.entry?_eq_none _ hin, Grid.entry?_eq_none _ hin']
  · rintro ⟨hsquare, htranspose⟩
    refine ⟨hsquare, fun i j => ?_⟩
    rw [polyAt_eq, polyAt_eq, (Grid.transpose_eq_iff.1 htranspose).2]

end SymMatrix

namespace Operand

/-- Every matrix that the operand is given by, whole or as diagonal blocks, is square and its own
transpose as a matrix of polynomials. -/
def IsSymmetric (o : Operand ℚ) : Prop :=
  ∀ m, o = .matrix m → ∀ p ∈ m.parts, Grid.rows p = Grid.cols p ∧ p.polys.transpose = p.polys

theorem isSymmetric_iff {o : Operand ℚ} : o.isSymmetric = true ↔ o.IsSymmetric := by
  cases o with
  | zero => exact ⟨fun _ _ hm => (nomatch hm), fun _ => rfl⟩
  | matrix m =>
    show m.isSymmetric = true ↔ _
    rw [BlockMatrix.isSymmetric_iff_parts]
    constructor
    · intro h m' hm' p hp
      cases hm'
      exact SymMatrix.isSymmetric_iff_transpose.1 (h p hp)
    · exact fun h p hp => SymMatrix.isSymmetric_iff_transpose.2 (h m rfl p hp)

theorem not_isSymmetric_iff {o : Operand ℚ} : o.isSymmetric = false ↔ ¬ o.IsSymmetric := by
  rw [← isSymmetric_iff, Bool.not_eq_true]

/-- Why operands are refused. Each reason says that the ones before it do not hold. -/
inductive Refused (lhs rhs : Operand ℚ) : LmiError → Prop
  | left : ¬ lhs.IsSymmetric → Refused lhs rhs (.nonSymmetric .left)
  | right : lhs.IsSymmetric → ¬ rhs.IsSymmetric → Refused lhs rhs (.nonSymmetric .right)
  | shapes {a b : BlockMatrix ℚ} : lhs.IsSymmetric → rhs.IsSymmetric → lhs = .matrix a →
      rhs = .matrix b → a.shape ≠ b.shape → Refused lhs rhs (.shape a.shape b.shape)
  | zeros : lhs = .zero → rhs = .zero → Refused lhs rhs .invalidOperands

end Operand

/-! ## The outcomes of building -/

namespace Lmi

section Operands
variable {K : Type} {lhs rhs : Operand K}

theorem checkOperands_of_isValid {l : Lmi K} (h : l.IsValid) :
    checkOperands l.lhs l.rhs = .ok () := by
  obtain ⟨lhs, rhs, kind⟩ := l
  obtain ⟨⟨m, hm⟩, hshape⟩ := h
  cases lhs with
  | zero =>
    cases rhs with
    | zero => rcases hm with hm | hm <;> cases hm
    | matrix b => rfl
  | matrix a =>
    cases rhs with
    | zero => rfl
    | matrix b => exact if_pos (hshape a b rfl rfl)

theorem checkOperands_eq_error {e : LmiError} : checkOperands lhs rhs = .error e ↔
    (∃ a b, lhs = .matrix a ∧ rhs = .matrix b ∧ a.shape ≠ b.shape ∧ e = .shape a.shape b.shape) ∨
      lhs = .zero ∧ rhs = .zero ∧ e = .invalidOperands := by
  unfold checkOperands
  split
  · rename_i a b
    split
    · rename_i hshape
      refine ⟨nofun, ?_⟩
      rintro (⟨a', b', ha, hb, hne, -⟩ | ⟨ha, -⟩)
      · cases ha
        cases hb
        exact absurd hshape hne
      · cases ha
    · rename_i hne
      refine ⟨fun h => .inl ⟨a, b, rfl, rfl, hne, (Except.error.inj h).symm⟩, ?_⟩
      rintro (⟨a', b', ha, hb, -, rfl⟩ | ⟨ha, -⟩)
      · cases ha
        cases hb
        rfl
      · cases ha
  · refine ⟨fun h => .inr ⟨rfl, rfl, (Except.error.inj h).symm⟩, ?_⟩
    rintro (⟨a, b, ha, -⟩ | ⟨-, -, rfl⟩)
    · cases ha
    · rfl
  · rename_i hmatrices hzeros
    refine ⟨nofun, ?_⟩
    rintro (⟨a, b, ha, hb, -⟩ | ⟨ha, hb, -⟩)
    · exact absurd hb (hmatrices a b ha)
    · exact absurd hb (hzeros ha)

end Operands

variable {lhs rhs : Operand ℚ} {kind : Kind}

theorem make_eq_ok_iff {l : Lmi ℚ} : make lhs rhs kind true = .ok l ↔
    l = ⟨lhs, rhs, kind⟩ ∧ l.IsValid ∧ lhs.IsSymmetric ∧ rhs.IsSymmetric := by
  constructor
  · intro h
    obtain ⟨rfl, hchecked⟩ := make_eq_ok h
    obtain ⟨hleft, hright⟩ := isSymmetric_of_make h rfl
    exact ⟨rfl, isValid_of_checkOperands hchecked, Operand.isSymmetric_iff.1 hleft,
      Operand.isSymmetric_iff.1 hright⟩
  · rintro ⟨rfl, hvalid, hleft, hright⟩
    exact make_of_checked (checkOperands_of_isValid hvalid) fun _ =>
      ⟨Operand.isSymmetric_iff.2 hleft, Operand.isSymmetric_iff.2 hright⟩

/-! ### The checks one after the other -/

theorem make_of_asymmetric_left (h : ¬ lhs.IsSymmetric) :
    make lhs rhs kind true = .error (.nonSymmetric .left) := by
  unfold make
  rw [Operand.not_isSymmetric_iff.2 h]
  rfl

theorem make_of_asymmetric_right (hleft : lhs.IsSymmetric) (h : ¬ rhs.IsSymmetric) :
    make lhs rhs kind true = .error (.nonSymmetric .right) := by
  unfold make
  rw [Operand.isSymmetric_iff.2 hleft, Operand.not_isSymmetric_iff.2 h]
  rfl

theorem make_of_symmetric (hleft : lhs.IsSymmetric) (hright : rhs.IsSymmetric) :
    make lhs rhs kind true = (fun _ => ⟨lhs, rhs, kind⟩) <$> checkOperands lhs rhs := by
  unfold make
  rw [Operand.isSymmetric_iff.2 hleft, Operand.isSymmetric_iff.2 hright]
  rfl

theorem make_eq_error_iff {e : LmiError} :
    make lhs rhs kind true = .error e ↔ Operand.Refused lhs rhs e := by
  constructor
  · intro h
    by_cases hleft : lhs.IsSymmetric
    · by_cases hright : rhs.IsSymmetric
      · rw [make_of_symmetric hleft hright, Except.map_eq_error, checkOperands_eq_error] at h
        rcases h with ⟨a, b, ha, hb, hne, rfl⟩ | ⟨ha, hb, rfl⟩
        · exact .shapes hleft hright ha hb hne
        · exact .zeros ha hb
      · rw [make_of_asymmetric_right hleft hright] at h
        cases h
        exact .right hleft hright
    · rw [make_of_asymmetric_left hleft] at h
      cases h
      exact .left hleft
  · intro h
    cases h with
    | left hleft => exact make_of_asymmetric_left hleft
    | right hleft hright => exact make_of_asymmetric_right hleft hright
    | @shapes a b hleft hright ha hb hne =>
      rw [make_of_symmetric hleft hright, Except.map_eq_error, checkOperands_eq_error]
      exact .inl ⟨a, b, ha, hb, hne, rfl⟩
    | zeros ha hb =>
      subst ha hb
      rfl

/-- An inequality is built exactly from operands that are symmetric, of which one is a matrix and
two have one shape; other operands are refused for the first reason that there is. What is built has
the operands as its sides, and a side that carries blocks is symmetric written out, too. -/
theorem make_exact (lhs rhs : Operand ℚ) (kind : Kind) :
    (∀ l, make lhs rhs kind true = .ok l ↔
      l = ⟨lhs, rhs, kind⟩ ∧ l.IsValid ∧ lhs.IsSymmetric ∧ rhs.IsSymmetric) ∧
    (∀ e, make lhs rhs kind true = .error e ↔ Operand.Refused lhs rhs e) ∧
    ∀ l, make lhs rhs kind true = .ok l → ∀ m, l.IsSide m →
      Grid.rows m.toDense = Grid.cols m.toDense ∧ m.toDense.polys.transpose = m.toDense.polys := by
  refine ⟨fun l => make_eq_ok_iff, fun e => make_eq_error_iff, fun l hmake m hm => ?_⟩
  have hsymmetric := isSymmetric_of_isSide hm (isSymmetric_of_make hmake rfl)
  exact SymMatrix.isSymmetric_iff_transpose.1 (BlockMatrix.isSymmetric_toDense hsymmetric)

/-- The blocks `(x)` and `m`, where the mirrored entries `x * (y + 1)` and `y * x + x` of `m` are
one polynomial; with a sign changed in one of them the block is refused. -/
theorem make_exact_of_unlike_entries :
    let x : Expr ℚ := .symbol { name := "x" }
    let y : Expr ℚ := .symbol { name := "y" }
    let m (c : ℚ) : SymMatrix ℚ := Grid.tabulate 2 2 fun i j =>
      if i < j then .product [x, .sum [y, .const 1]]
      else if j < i then .sum [.product [y, x], .product [.const c, x]] else .const 1
    let side (c : ℚ) : BlockMatrix ℚ := .blocks [SymMatrix.diagonal [x], m c]
    let l : Lmi ℚ := ⟨.zero, .matrix (side 1), .nd⟩
    (make .zero (.matrix (side 1)) .nd true = .ok l ∧ l.IsSide (side 1) ∧
      (Operand.matrix (side 1)).IsSymmetric ∧
      Grid.rows (side 1).toDense = Grid.cols (side 1).toDense ∧
      (side 1).toDense.polys.transpose = (side 1).toDense.polys) ∧
    make .zero (.matrix (side (-1))) .nd true = .error (.nonSymmetric .right) ∧
      Operand.Refused .zero (.matrix (side (-1))) (.nonSymmetric .right) := by
  intro x y m side l
  have hsymmetric : (Operand.matrix (side 1)).isSymmetric = true ∧
      (Operand.matrix (side (-1))).isSymmetric = false := by
    decide +kernel
  have hmake : make .zero (.matrix (side 1)) .nd true = .ok l :=
    make_of_checked (l := l) rfl fun _ => ⟨rfl, hsymmetric.1⟩
  have hleft : Operand.IsSymmetric (.zero : Operand ℚ) := nofun
  have hright : ¬ (Operand.matrix (side (-1))).IsSymmetric :=
    Operand.not_isSymmetric_iff.1 hsymmetric.2
  have hrefused : make .zero (.matrix (side (-1))) .nd true = .error (.nonSymmetric .right) :=
    make_of_asymmetric_right hleft hright
  obtain ⟨haccepted, -, hdense⟩ := make_exact .zero (.matrix (side 1)) .nd
  obtain ⟨-, hreasons, -⟩ := make_exact .zero (.matrix (side (-1))) .nd
  obtain ⟨-, -, -, hsides⟩ := (haccepted l).1 hmake
  exact ⟨⟨hmake, .inr rfl, hsides, hdense l hmake (side 1) (.inr rfl)⟩, hrefused,
    (hreasons _).1 hrefused⟩

end Lmi

end Semidefinite
