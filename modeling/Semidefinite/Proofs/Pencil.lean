import Semidefinite.Proofs.Forms
import Semidefinite.Proofs.Storage.Entries

/-!
# Pencils are read cell by cell

`Pencil.extract` reads the linear form of every entry that is not the literal
zero, and puts the constants and the coefficients into matrices of their own, which
hold what is written (`holds_of_ofForms`). So a pencil shows in each cell the form of
the entry there, whatever storage keeps it (`shows_of_extract`), and there is a pencil
exactly if every entry has a form (`exists_extract_iff_forms`).

With exact numbers the forms are made of the coefficients of the entries' polynomials
(`extract_eq_ok`), so the pencil has the value of the matrix (`extract_value`).
-/

namespace Semidefinite

open Storage

namespace Pencil

variable {K : Type} [Scalar K] {S : Type → Type} [Storage S]

/-! ## Matrices out of forms -/

/-- What the matrices read in a cell is the form, up to the signs of zeros. -/
structure Shows (p : Pencil S K) (c : Cell) (form : LinearForm K) : Prop where
  constant : ∃ u, get p.constant c.row c.col = .ok u ∧ Alike u form.constant
  coefficients : List.Forall₂ (fun matrix v => ∃ u, get matrix c.row c.col = .ok u ∧ Alike u v)
    p.coefficients form.coefficients

section Forms
variable [FaithfulStorage S K] {size : Nat × Nat} {n : Nat} {forms : List (Cell × LinearForm K)}
  (hnodup : (forms.map Prod.fst).Nodup)
  (hinside : ∀ q ∈ forms, q.1.row < size.1 ∧ q.1.col < size.2)
include hnodup hinside

theorem exists_ofForms (n : Nat) : ∃ p : Pencil S K, ofForms size n forms = .ok p := by
  have hpart : ∀ part : LinearForm K → Option K,
      ∃ m : S K, ofEntries size.1 size.2 (LinearForm.parts forms part) = .ok m :=
    fun part => exists_ofEntries (Write.admissible_parts hnodup hinside part)
  obtain ⟨constant, hconstant⟩ := hpart fun form => some form.constant
  rw [LinearForm.parts_constant] at hconstant
  obtain ⟨coefficients, hcoefficients⟩ := Except.exists_mapM_eq_ok
    fun k (_ : k ∈ List.range n) => hpart (·.coefficient? k)
  refine ⟨⟨coefficients, constant⟩, ?_⟩
  unfold ofForms
  exact Except.bind_eq_ok.2 ⟨constant, hconstant,
    Except.bind_eq_ok.2 ⟨coefficients, hcoefficients, rfl⟩⟩

/-- The matrices hold the parts of the forms that were written into them. -/
theorem holds_of_ofForms {p : Pencil S K} (h : ofForms size n forms = .ok p) :
    Holds p.constant size.1 size.2
        (Write.ofEntries (LinearForm.parts forms fun form => some form.constant)) ∧
      List.Forall₂ (fun k m => Holds m size.1 size.2
        (Write.ofEntries (LinearForm.parts forms (·.coefficient? k))))
        (List.range n) p.coefficients := by
  unfold ofForms at h
  obtain ⟨constant, hconstant, h⟩ := Except.bind_eq_ok.1 h
  obtain ⟨coefficients, hcoefficients, h⟩ := Except.bind_eq_ok.1 h
  cases h
  rw [← LinearForm.parts_constant] at hconstant
  exact ⟨holds_of_ofEntries (Write.admissible_parts hnodup hinside _) hconstant,
    (Except.forall₂_of_mapM_eq_ok hcoefficients).imp fun k m hm =>
      holds_of_ofEntries (Write.admissible_parts hnodup hinside _) hm⟩

/-- Matrices made of forms show in each cell the form that was put there, and zero in a cell
without one. -/
theorem shows_of_ofForms [LawfulZero K] {p : Pencil S K} (h : ofForms size n forms = .ok p)
    {c : Cell} (hrow : c.row < size.1) (hcol : c.col < size.2) {form : LinearForm K}
    (hlength : form.coefficients.length = n)
    (hform : (c, form) ∈ forms ∨ c ∉ forms.map Prod.fst ∧ form.IsZero) : p.Shows c form := by
  obtain ⟨hconstant, hcoefficients⟩ := holds_of_ofForms hnodup hinside h
  have hpart : ∀ (part : LinearForm K → Option K) (v : K), part form = some v →
      (form.IsZero → (v == 0) = true) → ∀ m : S K,
      Holds m size.1 size.2 (Write.ofEntries (LinearForm.parts forms part)) →
      ∃ u, get m c.row c.col = .ok u ∧ Alike u v := by
    intro part v hv hzero m hm
    refine hm.exists_get (LinearForm.nodup_parts hnodup part) hrow hcol ?_
    rcases hform with hmem | ⟨hnew, hform⟩
    · exact .inl (LinearForm.mem_parts.2 ⟨form, hmem, hv⟩)
    · refine .inr ⟨fun hmem => hnew ?_, hzero hform⟩
      obtain ⟨⟨c', v'⟩, hentry, rfl⟩ := List.mem_map.1 hmem
      obtain ⟨form', hform', -⟩ := LinearForm.mem_parts.1 hentry
      exact List.mem_map_of_mem hform'
  refine ⟨hpart (fun form => some form.constant) _ rfl LinearForm.IsZero.constant _ hconstant, ?_⟩
  refine List.forall₂_iff_get.2 ⟨?_, fun k hk hk' => ?_⟩
  · rw [← hcoefficients.length_eq, List.length_range, hlength]
  · have hm := hcoefficients.get (by rw [List.length_range]; omega) hk
    simp only [List.get_eq_getElem, List.getElem_range] at hm ⊢
    exact hpart (·.coefficient? k) _ (List.getElem?_eq_getElem hk')
      (fun hzero => hzero.coefficients _ (List.getElem_mem hk')) _ hm

end Forms

/-! ## Extraction -/

section Extract
variable {m : SymMatrix K} {vars : List Symbol} {supply supply' : NonceSupply} {p : Pencil S K}

theorem extract_supply (h : (extract S m vars).run supply = (.ok p, supply')) :
    supply' = supply.advance m.drawCount := by
  unfold extract at h
  rw [Lowering.run_bind_eq_ok] at h
  obtain ⟨forms, between, hforms, hmatrices⟩ := h
  rw [Lowering.run_ofFault_eq_ok] at hmatrices
  obtain ⟨-, rfl⟩ := hmatrices
  exact (SymMatrix.linearForms_eq_ok hforms).1

theorem exists_forms_of_extract (h : ((extract S m vars).run supply).1 = .ok p) :
    ∃ forms, ((m.linearForms vars).run supply).1 = .ok forms ∧
      m.formCells.map Prod.fst = forms.map Prod.fst ∧
      (∀ q ∈ forms, q.1.row < m.shape.1 ∧ q.1.col < m.shape.2) ∧
      ofForms m.shape vars.length forms = .ok p := by
  obtain ⟨forms, hforms, hp⟩ := Lowering.render_eq_ok.1 h
  have hrun : (m.linearForms vars).run supply = (.ok forms, _) := Prod.ext hforms rfl
  exact ⟨forms, hforms, SymMatrix.cells_linearForms hrun, SymMatrix.inside_of_linearForms hrun, hp⟩

section Faithful
variable [FaithfulStorage S K]

theorem exists_ofForms_of_linearForms {forms : List (Cell × LinearForm K)}
    (h : ((m.linearForms vars).run supply).1 = .ok forms) :
    ∃ p : Pencil S K, ofForms m.shape vars.length forms = .ok p := by
  have hrun : (m.linearForms vars).run supply = (.ok forms, _) := Prod.ext h rfl
  exact exists_ofForms (SymMatrix.cells_linearForms hrun ▸ m.nodup_formCells)
    (SymMatrix.inside_of_linearForms hrun) vars.length

/-- Every cell that is written lies in the matrices. -/
theorem neverFaults_extract (m : SymMatrix K) (vars : List Symbol) :
    (extract S m vars).NeverFaults :=
  (SymMatrix.neverFaults_linearForms m vars).bind fun _ _ _ hforms =>
    Lowering.neverFaults_ofFault (exists_ofForms_of_linearForms (congrArg Prod.fst hforms))

/-- There is a matrix for each variable, and all matrices have the shape of the source. -/
theorem shapes_of_extract (h : ((extract S m vars).run supply).1 = .ok p) :
    p.coefficients.length = vars.length ∧ p.shape = m.shape ∧
      ∀ matrix ∈ p.coefficients, Storage.shape matrix = m.shape := by
  obtain ⟨forms, -, hcells, hinside, hp⟩ := exists_forms_of_extract h
  obtain ⟨hconstant, hcoefficients⟩ := holds_of_ofForms (hcells ▸ m.nodup_formCells) hinside hp
  refine ⟨by rw [← hcoefficients.length_eq, List.length_range], hconstant.shape, fun M hM => ?_⟩
  obtain ⟨k, -, hholds⟩ := exists_of_mem_right hcoefficients hM
  exact hholds.shape

variable [LawfulOne K] [LawfulZeros K] (hfresh : m.IsFresh vars supply)
include hfresh

/-- Each cell shows the form of its entry. -/
theorem shows_of_extract (h : ((extract S m vars).run supply).1 = .ok p) {c : Cell} {e : Expr K}
    (he : m.entry? c.row c.col = some e) :
    ∃ form, LinearForm.plainForm e vars = .ok form ∧ p.Shows c form := by
  obtain ⟨forms, hforms, hcells, hinside, hp⟩ := exists_forms_of_extract h
  obtain ⟨hrow, hcol⟩ := Grid.lt_of_entry?_eq_some he
  have hshows : ∀ form : LinearForm K, form.coefficients.length = vars.length →
      (c, form) ∈ forms ∨ c ∉ forms.map Prod.fst ∧ form.IsZero → p.Shows c form :=
    fun form => shows_of_ofForms (hcells ▸ m.nodup_formCells) hinside hp hrow hcol
  rw [SymMatrix.result_linearForms hfresh] at hforms
  cases hzero : e.isZero with
  | true =>
    -- the literal zero is skipped, so its cell has no form
    obtain ⟨form, hform, hformZero⟩ := LinearForm.exists_plainForm_of_isZero hzero vars
    refine ⟨form, hform, hshows form (LinearForm.length_of_plainForm hform) (.inr ⟨?_, hformZero⟩)⟩
    rw [← hcells]
    intro hmem
    obtain ⟨⟨c', e'⟩, hcell, rfl⟩ := List.mem_map.1 hmem
    obtain ⟨he', hne⟩ := SymMatrix.mem_formCells.1 hcell
    rw [he] at he'
    cases he'
    rw [hzero] at hne
    cases hne
  | false =>
    have hcell : (c, e) ∈ m.formCells := SymMatrix.mem_formCells.2 ⟨he, hzero⟩
    obtain ⟨⟨c', form⟩, hmem, hread⟩ :=
      exists_of_mem_right (Except.forall₂_of_mapM_eq_ok hforms).flip hcell
    obtain ⟨hsame, hform⟩ := SymMatrix.formIn_eq_ok.1 hread
    obtain rfl : c = c' := hsame
    exact ⟨form, hform, hshows form (LinearForm.length_of_plainForm hform) (.inl hmem)⟩

theorem exists_extract_iff_forms :
    (∃ p : Pencil S K, ((extract S m vars).run supply).1 = .ok p) ↔
      ∀ i j e, m.entry? i j = some e → ∃ form, LinearForm.plainForm e vars = .ok form := by
  constructor
  · rintro ⟨p, hp⟩ i j e he
    obtain ⟨form, hform, -⟩ := shows_of_extract hfresh hp (c := ⟨i, j⟩) he
    exact ⟨form, hform⟩
  · intro h
    obtain ⟨forms, hforms⟩ : ∃ forms, m.formCells.mapM (m.formIn vars) = .ok forms := by
      refine Except.exists_mapM_eq_ok fun q hq => ?_
      obtain ⟨form, hform⟩ := h _ _ _ (SymMatrix.mem_formCells.1 hq).1
      exact ⟨(q.1, form), SymMatrix.formIn_eq_ok.2 ⟨rfl, hform⟩⟩
    rw [← SymMatrix.result_linearForms hfresh] at hforms
    obtain ⟨p, hp⟩ := exists_ofForms_of_linearForms (S := S) hforms
    exact ⟨p, Lowering.render_eq_ok.2 ⟨forms, hforms, hp⟩⟩

end Faithful

end Extract

end Pencil

/-! ## Exact numbers -/

theorem Alike.eq {u v : ℚ} (h : Alike u v) : u = v := by
  rcases h with rfl | ⟨hu, hv⟩
  · rfl
  · exact (beq_iff_eq.1 hu).trans (beq_iff_eq.1 hv).symm

namespace SymMatrix

/-- In every entry, terms that are filed under one text denote one polynomial. -/
def KeysFaithful (m : SymMatrix ℚ) : Prop :=
  ∀ i j e, m.entry? i j = some e → Expr.KeysFaithful e.summands

theorem keysFaithful_of_nodup {m : SymMatrix ℚ}
    (h : ∀ e ∈ m.entries.toList, (e.summands.map Expr.key).Nodup) : m.KeysFaithful :=
  fun i j e he => Expr.keysFaithful_of_nodup (h e (Grid.mem_entries.2 ⟨i, j, he⟩))

end SymMatrix

namespace Pencil

section Exact
variable {S : Type → Type} [Storage S]

/-- The linear form that the matrices keep in a cell. -/
def formAt (p : Pencil S ℚ) (row col : Nat) : LinearForm ℚ :=
  ⟨p.coefficients.map fun m => value m row col, value p.constant row col⟩

/-- There is a coefficient matrix for each of `n` variables, and all matrices have one shape. -/
structure WellShaped (p : Pencil S ℚ) (n : Nat) : Prop where
  count : p.coefficients.length = n
  shapes : ∀ m ∈ p.coefficients, Storage.shape m = p.shape

/-- The matrix `C₀ + Σ xₖ · Cₖ`. -/
def valueAt (p : Pencil S ℚ) (vars : List Symbol) (x : Symbol → ℚ) : Grid ℚ :=
  Grid.tabulate p.shape.1 p.shape.2 fun i j => (p.formAt i j).value vars x

theorem Shows.formAt_eq {p : Pencil S ℚ} {i j : Nat} {form : LinearForm ℚ}
    (h : p.Shows ⟨i, j⟩ form) : p.formAt i j = form := by
  have hvalue : ∀ {m : S ℚ} {v : ℚ}, (∃ u, get m i j = .ok u ∧ Alike u v) → value m i j = v := by
    rintro m v ⟨u, hu, halike⟩
    rw [value_of_get hu, halike.eq]
  have hcoefficients := map_eq_map_of_forall₂ (g := id) (h.coefficients.imp fun _ _ => hvalue)
  rw [List.map_id] at hcoefficients
  exact congrArg₂ LinearForm.mk hcoefficients (hvalue h.constant)

variable [FaithfulStorage S ℚ] {m : SymMatrix ℚ} {vars : List Symbol}
  {supply supply' : NonceSupply} {pencil : Pencil S ℚ}

/-- The form of a cell consists of the coefficients of the entry's polynomial. -/
theorem extract_eq_ok (hfresh : m.IsFresh vars supply) (hkeys : m.KeysFaithful)
    (h : (extract S m vars).run supply = (.ok pencil, supply')) :
    pencil.WellShaped vars.length ∧ pencil.shape = m.shape ∧
      ∀ i j e, m.entry? i j = some e →
        AffineIn vars e.poly ∧ pencil.formAt i j = LinearForm.ofPoly vars e.poly := by
  have hpencil : ((extract S m vars).run supply).1 = .ok pencil := congrArg Prod.fst h
  obtain ⟨hcount, hshape, hshapes⟩ := shapes_of_extract hpencil
  refine ⟨⟨hcount, fun M hM => (hshapes M hM).trans hshape.symm⟩, hshape, fun i j e he => ?_⟩
  obtain ⟨form, hform, hshows⟩ := shows_of_extract hfresh hpencil (c := ⟨i, j⟩) he
  obtain ⟨haffine, rfl⟩ := LinearForm.plainForm_eq_ok (hkeys i j e he) hform
  exact ⟨haffine, hshows.formAt_eq⟩

theorem exists_extract_iff (hfresh : m.IsFresh vars supply) :
    (∃ pencil after, (extract S m vars).run supply = (.ok pencil, after)) ↔
      ∀ i j e, m.entry? i j = some e → e.Readable vars := by
  simp only [← LinearForm.exists_plainForm_iff]
  rw [← exists_extract_iff_forms (S := S) hfresh]
  constructor
  · rintro ⟨pencil, after, hrun⟩
    exact ⟨pencil, congrArg Prod.fst hrun⟩
  · rintro ⟨pencil, hpencil⟩
    exact ⟨pencil, _, Prod.ext hpencil rfl⟩

theorem extract_value (hvars : vars.Nodup) (hfresh : m.IsFresh vars supply)
    (hkeys : m.KeysFaithful) (h : (extract S m vars).run supply = (.ok pencil, supply'))
    (x : Symbol → ℚ) : pencil.valueAt vars x = m.map (Expr.eval x) := by
  obtain ⟨-, hshape, hform⟩ := extract_eq_ok hfresh hkeys h
  have hrows : pencil.shape.1 = m.rows := by rw [hshape]; rfl
  have hcols : pencil.shape.2 = m.cols := by rw [hshape]; rfl
  refine Grid.ext_entry? hrows hcols fun i j hi hj => ?_
  have hshapes : i < pencil.shape.1 ∧ j < pencil.shape.2 := ⟨hi, hj⟩
  have hin : i < m.rows ∧ j < m.cols := ⟨hrows ▸ hi, hcols ▸ hj⟩
  have hentry := m.entry?_eq_some hin
  obtain ⟨haffine, hcell⟩ := hform i j _ hentry
  rw [valueAt, Grid.entry?_tabulate _ hshapes, Grid.entry?_map, hentry, Option.map_some, hcell,
    LinearForm.eval_eq_value hvars haffine]

end Exact

end Pencil

end Semidefinite
