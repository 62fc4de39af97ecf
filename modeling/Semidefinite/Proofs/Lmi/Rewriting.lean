import Semidefinite.Proofs.Lmi.Canonical

/-!
# Rewriting an inequality in canonical form

An inequality has a canonical form as soon as it has a canonical matrix
(`exists_canonicalForm_iff`). The form of an inequality that can be built says what
the inequality says, it is its own canonical form, and exchanging the sides along
with the kind does not change it (`canonicalForm_preserves`).
-/

namespace Semidefinite

namespace Kind

theorem isPositive_canonical (k : Kind) : k.canonical.isPositive = true := by
  cases k <;> rfl

theorem isStrict_canonical (k : Kind) : k.canonical.isStrict = k.isStrict := by
  cases k <;> rfl

theorem canonical_of_isPositive {k : Kind} (h : k.isPositive = true) : k.canonical = k := by
  cases k with
  | psd => rfl
  | pd => rfl
  | nsd => cases h
  | nd => cases h

theorem isPositive_mirrored (k : Kind) : k.mirrored.isPositive = !k.isPositive := by
  cases k <;> rfl

end Kind

namespace Lmi

variable {K : Type} {l : Lmi K} {m : BlockMatrix K}

/-! ## Canonical inequalities -/

/-- The inequality compares a matrix with zero, and the matrix is the greater side. -/
structure IsCanonical (l : Lmi K) : Prop where
  positive : l.kind.isPositive = true
  lhs : ∃ m, l.lhs = .matrix m
  rhs : l.rhs = .zero

theorem isCanonical_iff : l.isCanonical = true ↔ l.IsCanonical := by
  obtain ⟨lhs, rhs, kind⟩ := l
  simp only [isCanonical, Bool.and_eq_true, Bool.not_eq_true']
  constructor
  · rintro ⟨⟨hkind, hlhs⟩, hrhs⟩
    refine ⟨hkind, ?_, ?_⟩
    · cases lhs with
      | zero => cases hlhs
      | matrix m => exact ⟨m, rfl⟩
    · cases rhs with
      | zero => rfl
      | matrix m => cases hrhs
  · rintro ⟨hkind, ⟨m, rfl⟩, rfl⟩
    exact ⟨⟨hkind, rfl⟩, rfl⟩

theorem isCanonical_mk {k : Kind} (h : k.isPositive = true) :
    IsCanonical (⟨.matrix m, .zero, k⟩ : Lmi K) :=
  ⟨h, ⟨m, rfl⟩, rfl⟩

/-! ## Exchanging the sides -/

/-- The same inequality read from right to left. -/
def mirrored (l : Lmi K) : Lmi K :=
  ⟨l.rhs, l.lhs, l.kind.mirrored⟩

theorem greater_mirrored (l : Lmi K) : l.mirrored.greater = l.greater := by
  simp only [greater, mirrored, Kind.isPositive_mirrored]
  cases l.kind.isPositive <;> rfl

theorem lesser_mirrored (l : Lmi K) : l.mirrored.lesser = l.lesser := by
  simp only [lesser, mirrored, Kind.isPositive_mirrored]
  cases l.kind.isPositive <;> rfl

variable [Scalar K]

/-! ## The canonical form -/

theorem IsCanonical.canonicalForm_eq (h : l.IsCanonical) : l.canonicalForm = .ok (.unchanged l) :=
  if_pos (isCanonical_iff.2 h)

theorem canonicalMatrix_mk {k : Kind} (h : k.isPositive = true) :
    canonicalMatrix (⟨.matrix m, .zero, k⟩ : Lmi K) = .ok m := by
  unfold canonicalMatrix greater lesser
  rw [if_pos h, if_pos h]

theorem IsCanonical.exists_canonicalMatrix (h : l.IsCanonical) :
    ∃ m, l.canonicalMatrix = .ok m := by
  obtain ⟨lhs, rhs, kind⟩ := l
  obtain ⟨hkind, ⟨m, rfl⟩, rfl⟩ := h
  exact ⟨m, canonicalMatrix_mk hkind⟩

theorem IsCanonical.eq_mk (h : l.IsCanonical) (hm : l.canonicalMatrix = .ok m) :
    l = ⟨.matrix m, .zero, l.kind.canonical⟩ := by
  obtain ⟨lhs, rhs, kind⟩ := l
  obtain ⟨hkind, ⟨a, rfl⟩, rfl⟩ := h
  obtain rfl : a = m := Except.ok.inj ((canonicalMatrix_mk hkind).symm.trans hm)
  rw [Kind.canonical_of_isPositive hkind]

/-- The canonical form compares the canonical matrix with zero. A canonical inequality is not made
anew. -/
theorem exists_canonicalForm (hm : l.canonicalMatrix = .ok m) :
    ∃ form, l.canonicalForm = .ok form ∧ form.result = ⟨.matrix m, .zero, l.kind.canonical⟩ ∧
      (l.IsCanonical → form = .unchanged l) := by
  by_cases h : l.IsCanonical
  · exact ⟨.unchanged l, h.canonicalForm_eq, h.eq_mk hm, fun _ => rfl⟩
  · refine ⟨.remade ⟨.matrix m, .zero, l.kind.canonical⟩, ?_, rfl, fun hl => absurd hl h⟩
    unfold canonicalForm
    rw [if_neg (fun hl => h (isCanonical_iff.1 hl)), hm]
    rfl

theorem canonical_eq_ok (hm : l.canonicalMatrix = .ok m) :
    l.canonical = .ok ⟨.matrix m, .zero, l.kind.canonical⟩ := by
  obtain ⟨form, hform, hresult, -⟩ := exists_canonicalForm hm
  unfold canonical
  rw [hform, ← hresult]
  rfl

/-- Rewriting stops where there is no canonical matrix, and nowhere else. -/
theorem canonical_eq_map (l : Lmi K) :
    l.canonical = (fun m => ⟨.matrix m, .zero, l.kind.canonical⟩) <$> l.canonicalMatrix := by
  cases hm : l.canonicalMatrix with
  | ok m => exact canonical_eq_ok hm
  | error f =>
    have hnot : ¬ l.isCanonical = true := by
      intro h
      obtain ⟨m, hm'⟩ := (isCanonical_iff.1 h).exists_canonicalMatrix
      rw [hm] at hm'
      cases hm'
    unfold canonical canonicalForm
    rw [if_neg hnot, hm]
    rfl

theorem intoCanonical_eq_canonical (l : Lmi K) : l.intoCanonical = l.canonical := by
  unfold intoCanonical
  split
  · rename_i h
    unfold canonical
    rw [(isCanonical_iff.1 h).canonicalForm_eq]
    rfl
  · rfl

/-! ## Mirrored inequalities -/

theorem canonicalMatrix_mirrored (l : Lmi K) : l.mirrored.canonicalMatrix = l.canonicalMatrix := by
  unfold canonicalMatrix
  rw [greater_mirrored, lesser_mirrored]

theorem make_mirrored {lhs rhs : Operand K} {kind : Kind} {check : Bool}
    (h : make lhs rhs kind check = .ok l) :
    make rhs lhs kind.mirrored check = .ok l.mirrored := by
  have hsymmetric := isSymmetric_of_make h
  obtain ⟨rfl, hchecked⟩ := make_eq_ok h
  exact make_of_checked (l := mirrored ⟨lhs, rhs, kind⟩) (checkOperands_comm hchecked)
    fun hcheck => (hsymmetric hcheck).symm

/-! ## What the canonical form says -/

theorem exists_canonicalForm_iff : (∃ form, l.canonicalForm = .ok form) ↔
    ∃ m, l.canonicalMatrix = .ok m := by
  refine ⟨fun ⟨form, hform⟩ => ?_, fun ⟨m, hm⟩ => ?_⟩
  · by_cases h : l.IsCanonical
    · exact h.exists_canonicalMatrix
    · unfold canonicalForm at hform
      rw [if_neg fun hl => h (isCanonical_iff.1 hl)] at hform
      obtain ⟨m, hm, -⟩ := Except.map_eq_ok.1 hform
      exact ⟨m, hm⟩
  · obtain ⟨form, hform, -⟩ := exists_canonicalForm hm
    exact ⟨form, hform⟩

/-- An inequality that can be built has a canonical form exactly if there is room for it, which
there is if its symmetry was checked. The form is a matrix on the left, zero on the right, and a positive
kind that is as strict as the given one. Under each assignment its matrix has the value of the
greater side less that of the lesser one. An inequality in this form is left as it is, and the
mirrored inequality has the same matrix. -/
theorem canonicalForm_preserves {lhs rhs : Operand ℚ} {kind : Kind} {check : Bool} {l : Lmi ℚ}
    (h : make lhs rhs kind check = .ok l) (hwords : l.InWords) :
    ((∃ form, l.canonicalForm = .ok form) ↔ l.HasRoom) ∧ (check = true → l.HasRoom) ∧
    (∀ form, l.canonicalForm = .ok form → ∃ (m : BlockMatrix ℚ) (k : Kind),
      form.result = ⟨.matrix m, .zero, k⟩ ∧ m.InWords ∧
      k.isPositive = true ∧ k.isStrict = l.isStrict ∧
      (∀ x, Grid.map (Expr.eval x) m.toDense = l.differenceAt x) ∧
      (l.IsCanonical → form = .unchanged l) ∧
      form.result.canonicalForm = .ok (.unchanged form.result) ∧
      l.canonical = .ok form.result ∧ l.canonicalMatrix = .ok m) ∧
    l.intoCanonical = l.canonical ∧
    make rhs lhs kind.mirrored check = .ok l.mirrored ∧
    l.mirrored.canonicalMatrix = l.canonicalMatrix := by
  have hchecked := checkOperands_of_make h
  refine ⟨exists_canonicalForm_iff.trans (exists_canonicalMatrix_iff hchecked), ?_,
    fun form hform => ?_, intoCanonical_eq_canonical l, make_mirrored h, canonicalMatrix_mirrored l⟩
  · rintro rfl
    exact (hasRoom_of_make h).1
  · obtain ⟨m, hm⟩ := exists_canonicalForm_iff.1 ⟨form, hform⟩
    obtain ⟨form', hform', hresult, hunchanged⟩ := exists_canonicalForm hm
    obtain rfl : form' = form := Except.ok.inj (hform'.symm.trans hform)
    have hpositive := Kind.isPositive_canonical l.kind
    have hagain : form'.result.canonicalForm = .ok (.unchanged form'.result) := by
      rw [hresult]
      exact (isCanonical_mk hpositive).canonicalForm_eq
    have hcanonical : l.canonical = .ok form'.result := by
      rw [canonical_eq_ok hm, hresult]
    exact ⟨m, l.kind.canonical, hresult, inWords_canonicalMatrix hchecked hwords hm, hpositive,
      Kind.isStrict_canonical l.kind, fun _ => map_eval_canonicalMatrix hchecked hm, hunchanged,
      hagain, hcanonical, hm⟩

/-- `diag(x, y) ⪯ m` for the matrix `m` of rows `(2, x * y)` and `(y * x, 0)`: the left side carries
blocks, the right one is whole, and the sides are exchanged. -/
theorem canonicalForm_preserves_of_unlike_sides :
    let x : Expr ℚ := .symbol { name := "x" }
    let y : Expr ℚ := .symbol { name := "y" }
    let lhs : Operand ℚ := .matrix (.blocks [SymMatrix.diagonal [x], SymMatrix.diagonal [y]])
    let rhs : Operand ℚ := .matrix (.whole (Grid.tabulate 2 2 fun i j =>
      if i < j then .product [x, y] else if j < i then .product [y, x]
      else .const (if i.val = 0 then 2 else 0)))
    let l : Lmi ℚ := ⟨lhs, rhs, .nsd⟩
    make lhs rhs .nsd true = .ok l ∧ l.InWords ∧
    ∃ (form : Rewriting (Lmi ℚ)) (m : BlockMatrix ℚ) (k : Kind),
      l.canonicalForm = .ok form ∧ form.result = ⟨.matrix m, .zero, k⟩ ∧
      k.isPositive = true ∧ k.isStrict = l.isStrict ∧
      (∀ x, Grid.map (Expr.eval x) m.toDense = l.differenceAt x) ∧
      form.result.canonicalForm = .ok (.unchanged form.result) ∧
      l.intoCanonical = .ok form.result ∧ l.mirrored.canonicalMatrix = .ok m := by
  intro x y lhs rhs l
  have hsymmetric : l.lhs.isSymmetric = true ∧ l.rhs.isSymmetric = true := by
    decide +kernel
  have hchecked : checkOperands l.lhs l.rhs = .ok () := rfl
  have hmake : make l.lhs l.rhs l.kind true = .ok l :=
    make_of_checked hchecked fun _ => hsymmetric
  have hwords : l.InWords := inWords_of_operands (by decide +kernel)
  obtain ⟨hexists, hroom, hforms, hinto, -, hmirrored⟩ := canonicalForm_preserves hmake hwords
  obtain ⟨form, hform⟩ := hexists.2 (hroom rfl)
  obtain ⟨m, k, hresult, -, hpositive, hstrict, hvalue, -, hagain, hcanonical, hm⟩ :=
    hforms form hform
  exact ⟨hmake, hwords, form, m, k, hform, hresult, hpositive, hstrict, hvalue, hagain,
    hinto.trans hcanonical, hmirrored.trans hm⟩

/-- An inequality that can be built and has no canonical form. -/
theorem canonicalForm_not_preserved_of_unlike_strips :
    let l : Lmi ℚ := strips 4 (2 ^ 62) .nsd
    make l.lhs l.rhs l.kind false = .ok l ∧ l.InWords ∧ ∀ form, l.canonicalForm ≠ .ok form := by
  intro l
  have hwords : l.InWords := inWords_strips (by decide) (by decide) .nsd
  refine ⟨rfl, hwords, fun form hform => ?_⟩
  have hm := exists_canonicalForm_iff.1 ⟨form, hform⟩
  exact not_hasRoom_strips .nsd (by decide) ((exists_canonicalMatrix_iff (l := l) rfl).1 hm)

end Lmi

end Semidefinite
