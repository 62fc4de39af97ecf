import Semidefinite.Proofs.Pencil
import Semidefinite.Proofs.Storage.Journal

/-!
# Extraction reads cell by cell

A pencil shows in each cell the form of the entry there, whatever storage keeps it, and
no cell is written twice (`Pencil.writtenOnce_of_extract`). A matrix is refused for its
first entry that has no form (`Pencil.exists_of_extract_eq_error`).
-/

namespace Semidefinite

open Storage

variable {K : Type} [Scalar K]

namespace Pencil

variable {S : Type → Type} [Storage S]

/-! ## Extraction -/

section Extract
variable {m : SymMatrix K} {vars : List Symbol} {supply : NonceSupply} {p : Pencil S K}

/-- The calls that extraction makes on a storage write no cell twice. -/
theorem writtenOnce_of_extract (h : ((extract S m vars).run supply).1 = .ok p) :
    ∃ journal : Pencil Journal K,
      ((extract Journal m vars).run supply).1 = .ok journal ∧ p.WrittenOnce journal := by
  obtain ⟨forms, hforms, hcells, -, hp⟩ := exists_forms_of_extract h
  obtain ⟨journal, hjournal, honce⟩ := writtenOnce_of_ofForms (hcells ▸ m.nodup_formCells) hp
  exact ⟨journal, Lowering.render_eq_ok.2 ⟨forms, hforms, hjournal⟩, honce⟩

variable [FaithfulStorage S K] [LawfulOne K] [LawfulZeros K] (hfresh : m.IsFresh vars supply)
include hfresh

/-- A matrix is refused for its first entry without a form. -/
theorem exists_of_extract_eq_error {failure : Failure LmiError}
    (h : ((extract S m vars).run supply).1 = .error failure) :
    ∃ (c : Cell) (e : Expr K) (cause : NonLinear), m.entry? c.row c.col = some e ∧
      LinearForm.plainForm e vars = .error cause ∧
      failure = .error (.nonLinearMatrix m.text cause) ∧
      ∀ (c' : Cell) (e' : Expr K), m.entry? c'.row c'.col = some e' → c'.Precedes c →
        ∃ form, LinearForm.plainForm e' vars = .ok form := by
  have hmapM : m.formCells.mapM (m.formIn vars) = .error failure := by
    rw [← SymMatrix.result_linearForms hfresh]
    unfold extract at h
    rw [Lowering.result_render] at h
    cases hforms : ((m.linearForms vars).run supply).1 with
    | error cause =>
      rw [hforms] at h
      cases h
      rfl
    | ok forms =>
      obtain ⟨p, hp⟩ := exists_ofForms_of_linearForms (S := S) hforms
      rw [hforms] at h
      change (ofForms m.shape vars.length forms : Except Fault (Pencil S K)).mapError _ = _ at h
      rw [hp] at h
      cases h
  obtain ⟨before, ⟨c, e⟩, after, hsplit, hbefore, hfirst⟩ := Except.mapM_eq_error_iff.1 hmapM
  obtain ⟨cause, hcause, rfl⟩ := SymMatrix.formIn_eq_error.1 hfirst
  have hcell : (c, e) ∈ m.formCells := hsplit ▸ List.mem_append_right _ List.mem_cons_self
  refine ⟨c, e, cause, (SymMatrix.mem_formCells.1 hcell).1, hcause, rfl, fun c' e' he' hc' => ?_⟩
  cases hzero : e'.isZero with
  | true =>
    obtain ⟨form, hform, -⟩ := LinearForm.exists_plainForm_of_isZero hzero vars
    exact ⟨form, hform⟩
  | false =>
    have horder : m.formCells.Pairwise fun p q => p.1.Precedes q.1 := m.rowMajor_cells.filter _
    have hmem : (c', e') ∈ m.formCells := SymMatrix.mem_formCells.2 ⟨he', hzero⟩
    rw [hsplit] at hmem horder
    obtain ⟨-, hafter, -⟩ := List.pairwise_append.1 horder
    rcases List.mem_append.1 hmem with hmem | hmem
    · obtain ⟨⟨c'', form⟩, hread⟩ := hbefore _ hmem
      exact ⟨form, (SymMatrix.formIn_eq_ok.1 hread).2⟩
    · rcases List.mem_cons.1 hmem with hsame | hmem
      · exact absurd (Prod.mk.inj hsame).1 hc'.ne
      · exact absurd hc' ((List.pairwise_cons.1 hafter).1 _ hmem).not_symm

end Extract

/-! ## Entries on their own -/

/-- Extraction does what the linear forms of the entries say, each read on its own with the nonce
of `reader`. -/
structure ReadsCells (S : Type → Type) [Storage S] (m : SymMatrix K) (vars : List Symbol)
    (supply reader : NonceSupply) : Prop where
  /-- There is a pencil exactly if every entry has a form. -/
  accepts : (∃ p : Pencil S K, ((extract S m vars).run supply).1 = .ok p) ↔
    ∀ i j e, m.entry? i j = some e → ∃ form, ((e.linearForm vars).run reader).1 = .ok form
  /-- There is a matrix for each variable, and all matrices have the shape of the source. -/
  shapes : ∀ p : Pencil S K, ((extract S m vars).run supply).1 = .ok p →
    p.coefficients.length = vars.length ∧ p.shape = m.shape ∧
      ∀ matrix ∈ p.coefficients, Storage.shape matrix = m.shape
  /-- Each cell shows the form of its entry, the literal zeros included. -/
  cells : ∀ p : Pencil S K, ((extract S m vars).run supply).1 = .ok p →
    ∀ i j e, m.entry? i j = some e →
      ∃ form, ((e.linearForm vars).run reader).1 = .ok form ∧ p.Shows ⟨i, j⟩ form
  /-- No cell of a matrix is written twice. -/
  writes : ∀ p : Pencil S K, ((extract S m vars).run supply).1 = .ok p →
    ∃ journal : Pencil Journal K,
      ((extract Journal m vars).run supply).1 = .ok journal ∧ p.WrittenOnce journal
  /-- A matrix is refused for its first entry without a form. -/
  refuses : ∀ failure, ((extract S m vars).run supply).1 = .error failure →
    ∃ i j e cause, m.entry? i j = some e ∧ ((e.linearForm vars).run reader).1 = .error cause ∧
      failure = .error (.nonLinearMatrix m.text cause) ∧
      ∀ i' j' e', m.entry? i' j' = some e' → Cell.Precedes ⟨i', j'⟩ ⟨i, j⟩ →
        ∃ form, ((e'.linearForm vars).run reader).1 = .ok form

end Pencil

end Semidefinite
