import Semidefinite.Proofs.Expr.Flattening
import Semidefinite.Proofs.Expr.Nonce
import Semidefinite.Proofs.Grid
import Semidefinite.Proofs.Lowering

/-!
# Forms of a matrix

The linear forms of a matrix are read row after row, each with a nonce of its own
(`SymMatrix.linearForms_eq_ok`). Where the nonces are fresh the forms are those of the
entries, read one by one (`SymMatrix.result_linearForms`). The literal zero is skipped,
and its form is the one of a cell left alone (`LinearForm.exists_plainForm_of_isZero`).
-/

namespace Semidefinite

variable {K : Type} [Scalar K]

namespace LinearForm

variable {e : Expr K} {vars : List Symbol} {form : LinearForm K}

/-- All parts equal zero. -/
structure IsZero (form : LinearForm K) : Prop where
  constant : (form.constant == 0) = true
  coefficients : ∀ v ∈ form.coefficients, (v == 0) = true

theorem length_of_plainForm (h : plainForm e vars = .ok form) :
    form.coefficients.length = vars.length := by
  unfold plainForm at h
  split at h
  · cases h
    exact List.length_map _
  · split at h
    · cases h
      exact List.length_map _
    · cases h

/-- The literal zero has no terms, so its form is zero. -/
theorem exists_plainForm_of_isZero [LawfulZeros K] (h : e.isZero = true) (vars : List Symbol) :
    ∃ form, plainForm e vars = .ok form ∧ form.IsZero := by
  have hterms : Expr.termsOfSum [e] = Tally.empty := by
    rw [Expr.termsOfSum, Expr.sumItems_of_isZero h]
    rfl
  refine ⟨ofTerms vars Tally.empty, ?_, LawfulZero.zero_beq, fun v hv => ?_⟩
  · rw [plainForm, hterms]
    rfl
  · obtain ⟨x, -, rfl⟩ := List.mem_map.1 hv
    exact LawfulZero.zero_beq

end LinearForm

namespace SymMatrix

/-! ## Reading the forms -/

/-- The entries that a linear form is read from, with their cells. -/
def formCells (m : SymMatrix K) : List (Cell × Expr K) :=
  m.cells.filter fun (_, e) => !e.isZero

/-- How many nonces are drawn to read all linear forms. -/
def drawCount (m : SymMatrix K) : Nat :=
  m.formCells.length

theorem mem_formCells {m : SymMatrix K} {c : Cell} {e : Expr K} :
    (c, e) ∈ m.formCells ↔ m.entry? c.row c.col = some e ∧ e.isZero = false := by
  simp [formCells, Grid.mem_cells]

theorem nodup_formCells (m : SymMatrix K) : (m.formCells.map Prod.fst).Nodup :=
  m.nodup_cells.sublist (List.filter_sublist.map _)

/-- What reads the form of one entry. -/
def readForm (m : SymMatrix K) (vars : List Symbol) (p : Cell × Expr K) :
    Lowering LmiError (Cell × LinearForm K) := do
  let form ← ExceptT.adapt (fun cause => Failure.error (.nonLinearMatrix m.text cause))
    (p.2.linearForm vars)
  pure (p.1, form)

section LinearForms
variable {m : SymMatrix K} {vars : List Symbol} {supply supply' : NonceSupply}

theorem linearForms_eq (m : SymMatrix K) (vars : List Symbol) :
    m.linearForms vars = m.formCells.mapM (m.readForm vars) := rfl

theorem run_readForm_of_ok {p : Cell × Expr K} {form : LinearForm K}
    (h : LinearForm.ofExpr supply.peek p.2 vars = .ok form) :
    (m.readForm vars p).run supply = (.ok (p.1, form), supply.advance 1) := by
  unfold readForm
  rw [Lowering.run_bind_eq_ok]
  refine ⟨form, supply.advance 1, ?_, rfl⟩
  rw [Lowering.run_adapt_eq_ok, Lowering.run_linearForm_eq_ok]
  exact ⟨h, rfl⟩

theorem readForm_eq_ok {p : Cell × Expr K} {q : Cell × LinearForm K}
    (h : (m.readForm vars p).run supply = (.ok q, supply')) :
    p.1 = q.1 ∧ LinearForm.ofExpr supply.peek p.2 vars = .ok q.2 ∧ supply' = supply.advance 1 := by
  unfold readForm at h
  rw [Lowering.run_bind_eq_ok] at h
  obtain ⟨form, between, hform, h⟩ := h
  rw [Lowering.run_adapt_eq_ok, Lowering.run_linearForm_eq_ok] at hform
  obtain ⟨hform, rfl⟩ := hform
  rw [Lowering.run_pure_eq_ok] at h
  obtain ⟨rfl, rfl⟩ := h
  exact ⟨rfl, hform, rfl⟩

/-- Every form is read with a nonce of its own. -/
theorem linearForms_eq_ok {forms : List (Cell × LinearForm K)}
    (h : (m.linearForms vars).run supply = (.ok forms, supply')) :
    supply' = supply.advance m.drawCount ∧
      List.Forall₂ (fun p q => p.1 = q.1 ∧ ∃ k < m.drawCount,
        LinearForm.ofExpr (supply.advance k).peek p.2 vars = .ok q.2) m.formCells forms := by
  have hcount : (m.formCells.map fun _ => 1).sum = m.drawCount := by
    simp [drawCount]
  rw [linearForms_eq] at h
  obtain ⟨hsupply, hforms⟩ := Lowering.mapM_eq_ok (fun _ _ _ _ _ hrun =>
    (readForm_eq_ok hrun).2.2) h
  rw [hcount] at hsupply hforms
  refine ⟨hsupply, hforms.imp ?_⟩
  rintro p q ⟨-, k, after, hk, hrun⟩
  obtain ⟨hcell, hform, -⟩ := readForm_eq_ok hrun
  exact ⟨hcell, k, by omega, hform⟩

theorem cells_linearForms {forms : List (Cell × LinearForm K)}
    (h : (m.linearForms vars).run supply = (.ok forms, supply')) :
    m.formCells.map Prod.fst = forms.map Prod.fst :=
  map_eq_map_of_forall₂ ((linearForms_eq_ok h).2.imp fun _ _ hpq => hpq.1)

theorem inside_of_linearForms {forms : List (Cell × LinearForm K)}
    (h : (m.linearForms vars).run supply = (.ok forms, supply')) :
    ∀ q ∈ forms, q.1.row < m.shape.1 ∧ q.1.col < m.shape.2 := by
  intro q hq
  obtain ⟨p, hp, hpq, -⟩ := exists_of_mem_right (linearForms_eq_ok h).2 hq
  rw [← hpq]
  exact Grid.lt_of_entry?_eq_some (mem_formCells.1 hp).1

theorem neverFaults_linearForms (m : SymMatrix K) (vars : List Symbol) :
    (m.linearForms vars).NeverFaults :=
  Lowering.neverFaults_mapM fun _ _ =>
    (Lowering.neverFaults_adapt _ _).bind fun _ _ _ _ => Lowering.neverFaults_pure _

/-- The form of an entry with its cell, or the error that stands for the matrix. -/
def formIn (m : SymMatrix K) (vars : List Symbol) (p : Cell × Expr K) :
    Except (Failure LmiError) (Cell × LinearForm K) :=
  match LinearForm.plainForm p.2 vars with
  | .ok form => .ok (p.1, form)
  | .error cause => .error (.error (.nonLinearMatrix m.text cause))

theorem formIn_eq_ok {p : Cell × Expr K} {q : Cell × LinearForm K} :
    m.formIn vars p = .ok q ↔ p.1 = q.1 ∧ LinearForm.plainForm p.2 vars = .ok q.2 := by
  obtain ⟨c, form⟩ := q
  unfold formIn
  cases LinearForm.plainForm p.2 vars <;> simp

theorem formIn_eq_error {p : Cell × Expr K} {failure : Failure LmiError} :
    m.formIn vars p = .error failure ↔ ∃ cause, LinearForm.plainForm p.2 vars = .error cause ∧
      failure = .error (.nonLinearMatrix m.text cause) := by
  unfold formIn
  cases LinearForm.plainForm p.2 vars <;> simp [eq_comm]

theorem run_readForm {p : Cell × Expr K}
    (h : LinearForm.ofExpr supply.peek p.2 vars = LinearForm.plainForm p.2 vars) :
    (m.readForm vars p).run supply = (m.formIn vars p, supply.advance 1) := by
  unfold formIn
  rw [← h]
  cases hform : LinearForm.ofExpr supply.peek p.2 vars with
  | ok form => exact run_readForm_of_ok hform
  | error cause =>
    refine Lowering.run_bind_of_error ?_
    show ((LinearForm.ofExpr supply.peek p.2 vars).mapError _, supply.advance 1) = _
    rw [hform]
    rfl

/-! ## Fresh nonces -/

/-- None of the nonces that reading the matrix draws is a variable or occurs in an entry. -/
def IsFresh (m : SymMatrix K) (vars : List Symbol) (supply : NonceSupply) : Prop :=
  ∀ k < m.drawCount, (supply.advance k).peek ∉ vars ∧
    ∀ i j e, m.entry? i j = some e → (supply.advance k).peek ∉ e.occurrences

theorem isFresh_of_named (hvars : ∀ s ∈ vars, s.isNonce = false)
    (hentries : ∀ e ∈ m.entries.toList, ∀ s ∈ e.occurrences, s.isNonce = false)
    (supply : NonceSupply) : m.IsFresh vars supply := by
  refine fun k _ => ⟨fun hmem => ?_, fun i j e he hmem => ?_⟩
  · cases hvars _ hmem
  · cases hentries e (Grid.mem_entries.2 ⟨i, j, he⟩) _ hmem

/-- With fresh nonces the forms are those of the entries, one by one. -/
theorem result_linearForms [LawfulOne K] (hfresh : m.IsFresh vars supply) :
    ((m.linearForms vars).run supply).1 = m.formCells.mapM (m.formIn vars) := by
  rw [linearForms_eq]
  refine Lowering.result_mapM fun p hp k hk => ?_
  obtain ⟨hvars, hoccurs⟩ := hfresh k hk
  rw [run_readForm (LinearForm.ofExpr_eq_plainForm hvars (hoccurs _ _ _ (mem_formCells.1 hp).1)),
    NonceSupply.advance_advance]

end LinearForms

end SymMatrix

end Semidefinite
