import Semidefinite.Lmi.Expanded
import Semidefinite.Proofs.Extraction
import Semidefinite.Proofs.Pencil

/-!
# Linear matrices

A linear matrix keeps what is extracted from a symbolic one, save for a constant of
zeros (`LinearMatrix.ofPencil`), and has its value in every cell (`valueAt_eq_eval`).
The shape is not kept: it is that of the constant or of the first coefficient, so it is
lost if there is neither. Collapsed again, a linear matrix is the matrix it was made of,
entry by entry as polynomials, exactly if there is a variable, an entry that does not
denote zero, or nothing to lose (`collapses_iff`).
-/

namespace Semidefinite

open Storage

namespace LinearMatrix

/-! ## Keeping a pencil -/

section Keep
variable {K : Type} [Scalar K]

/-- The coefficients with their variables, and the constant unless it is zero. -/
def ofPencil (p : Pencil Grid K) (vars : List Symbol) : LinearMatrix K where
  terms := vars.zip p.coefficients
  constant := if p.constant.entries.any (· != 0) then some p.constant else none

theorem run_ofMatrix_eq_ok {m : SymMatrix K} {vars : List Symbol} {supply after : NonceSupply}
    {l : LinearMatrix K} : (ofMatrix m vars).run supply = (.ok l, after) ↔
      ∃ p : Pencil Grid K, (Pencil.extract Grid m vars).run supply = (.ok p, after) ∧
        l = ofPencil p vars := by
  unfold ofMatrix
  rw [Lowering.run_bind_eq_ok]
  constructor
  · rintro ⟨p, between, hp, hl⟩
    rw [Lowering.run_pure_eq_ok] at hl
    obtain ⟨rfl, rfl⟩ := hl
    exact ⟨p, hp, rfl⟩
  · rintro ⟨p, hp, rfl⟩
    exact ⟨p, after, hp, Lowering.run_pure_eq_ok.2 ⟨rfl, rfl⟩⟩

end Keep

/-- The value `Σ xₖ · Cₖ + C₀` of a cell, where a constant that is not there counts as zero. -/
def valueAt (l : LinearMatrix ℚ) (x : Symbol → ℚ) (i j : Nat) : ℚ :=
  (l.terms.map fun (s, c) => value c i j * x s).sum + (l.constant.map (value · i j)).getD 0

section Pencil
variable {p : Pencil Grid ℚ} {vars : List Symbol}

theorem constant_ofPencil_eq_none :
    (ofPencil p vars).constant = none ↔ ∀ i j v, p.constant.entry? i j = some v → v = 0 := by
  have hany : p.constant.entries.any (· != 0) = true ↔
      ∃ i j v, p.constant.entry? i j = some v ∧ v ≠ 0 := by
    rw [← Array.any_toList, List.any_eq_true]
    constructor
    · rintro ⟨v, hv, hne⟩
      obtain ⟨i, j, hentry⟩ := Grid.mem_entries.1 hv
      exact ⟨i, j, v, hentry, bne_iff_ne.1 hne⟩
    · rintro ⟨i, j, v, hentry, hne⟩
      exact ⟨v, Grid.mem_entries.2 ⟨i, j, hentry⟩, bne_iff_ne.2 hne⟩
  unfold ofPencil
  rw [ite_eq_right_iff]
  simp only [reduceCtorEq, imp_false, hany]
  push Not
  rfl

theorem eq_of_constant_ofPencil {c : Grid ℚ} (h : (ofPencil p vars).constant = some c) :
    p.constant = c := by
  unfold ofPencil at h
  split at h
  · exact Option.some.inj h
  · cases h

theorem value_constant_ofPencil (i j : Nat) :
    ((ofPencil p vars).constant.map (value · i j)).getD 0 = value p.constant i j := by
  cases hconstant : (ofPencil p vars).constant with
  | none =>
    rw [Grid.value_eq]
    cases hentry : p.constant.entry? i j with
    | none => rfl
    | some v => exact (constant_ofPencil_eq_none.1 hconstant i j v hentry).symm
  | some c =>
    rw [eq_of_constant_ofPencil hconstant]
    rfl

theorem valueAt_ofPencil (x : Symbol → ℚ) (i j : Nat) :
    (ofPencil p vars).valueAt x i j = (p.formAt i j).value vars x := by
  have hterms : (vars.zip p.coefficients).map (fun (s, c) => value c i j * x s) =
      List.zipWith (fun c s => c * x s) (p.coefficients.map fun m => value m i j) vars := by
    rw [List.zipWith_map_left, List.zipWith_comm, List.zip, List.map_zipWith]
  unfold valueAt
  rw [value_constant_ofPencil, add_comm]
  exact congrArg (fun terms => value p.constant i j + terms.sum) hterms

theorem map_fst_terms (hp : p.WellShaped vars.length) :
    (ofPencil p vars).terms.map Prod.fst = vars :=
  List.map_fst_zip (Nat.le_of_eq hp.count.symm)

theorem shape_of_mem_ofPencil (hp : p.WellShaped vars.length) {c : Grid ℚ}
    (h : c ∈ (ofPencil p vars).terms.map Prod.snd ++ (ofPencil p vars).constant.toList) :
    c.shape = p.shape := by
  rcases List.mem_append.1 h with hc | hc
  · obtain ⟨term, hterm, rfl⟩ := List.mem_map.1 hc
    exact hp.shapes _ (List.of_mem_zip hterm).2
  · rw [← eq_of_constant_ofPencil (Option.mem_toList.1 hc)]
    rfl

/-- The shape is that of the pencil as soon as one matrix is kept. -/
theorem shape_ofPencil (hp : p.WellShaped vars.length)
    (h : vars ≠ [] ∨ (ofPencil p vars).constant ≠ none) : (ofPencil p vars).shape = p.shape := by
  cases hconstant : (ofPencil p vars).constant with
  | some c =>
    rw [shape, hconstant, ← eq_of_constant_ofPencil hconstant]
    rfl
  | none =>
    have hvars := h.resolve_right fun hne => hne hconstant
    cases hlist : vars with
    | nil => exact absurd hlist hvars
    | cons s rest =>
      cases hcoefficients : p.coefficients with
      | nil =>
        have hcount := hp.count
        rw [hlist, hcoefficients] at hcount
        cases hcount
      | cons c others =>
        have hterms : (ofPencil p vars).terms = (s, c) :: rest.zip others := by
          rw [ofPencil, hlist, hcoefficients, List.zip_cons_cons]
        rw [← hlist, shape, hconstant, hterms]
        exact hp.shapes c (hcoefficients ▸ List.mem_cons_self)

end Pencil

/-! ## Values -/

theorem entry?_toSymbolic (l : LinearMatrix ℚ) {i j : Nat} (h : i < l.shape.1 ∧ j < l.shape.2) :
    ∃ e, l.toSymbolic.entry? i j = some e ∧ ∀ x : Symbol → ℚ, e.eval x = l.valueAt x i j := by
  refine ⟨_, Grid.entry?_tabulate _ h, fun x => ?_⟩
  rw [Expr.eval_sumOf, List.map_append, List.sum_append, List.map_map, List.map_map, valueAt]
  congr 1
  · refine congrArg List.sum (List.map_congr_left fun term _ => ?_)
    simp [Expr.eval_mul]
  · cases l.constant <;> simp

section OfMatrix
variable {m : SymMatrix ℚ} {vars : List Symbol} {supply after : NonceSupply} {l : LinearMatrix ℚ}

/-- A linear matrix is made of the coefficients of the entries, and has their values. -/
theorem ofMatrix_eq_ok (hvars : vars.Nodup) (hfresh : m.IsFresh vars supply)
    (hkeys : m.KeysFaithful) (h : (ofMatrix m vars).run supply = (.ok l, after)) :
    ∃ p : Pencil Grid ℚ, l = ofPencil p vars ∧ p.WellShaped vars.length ∧ p.shape = m.shape ∧
      ∀ i j e, m.entry? i j = some e → AffineIn vars e.poly ∧
        ∀ x : Symbol → ℚ, l.valueAt x i j = e.eval x := by
  obtain ⟨p, hp, rfl⟩ := run_ofMatrix_eq_ok.1 h
  obtain ⟨hwell, hshape, hform⟩ := Pencil.extract_eq_ok hfresh hkeys hp
  refine ⟨p, rfl, hwell, hshape, fun i j e he => ?_⟩
  obtain ⟨haffine, hcell⟩ := hform i j e he
  refine ⟨haffine, fun x => ?_⟩
  rw [valueAt_ofPencil, hcell, LinearForm.eval_eq_value hvars haffine]

/-- A linear matrix is made exactly if every entry is affine in the variables. -/
theorem exists_ofMatrix_iff (hfresh : m.IsFresh vars supply) (hkeys : m.KeysFaithful) :
    (∃ l after, (ofMatrix m vars).run supply = (.ok l, after)) ↔
      ∀ i j e, m.entry? i j = some e → AffineIn vars e.poly := by
  constructor
  · rintro ⟨l, after, h⟩ i j e he
    obtain ⟨p, hp, -⟩ := run_ofMatrix_eq_ok.1 h
    obtain ⟨-, -, hform⟩ := Pencil.extract_eq_ok hfresh hkeys hp
    exact (hform i j e he).1
  · intro h
    obtain ⟨p, after, hp⟩ := (Pencil.exists_extract_iff (S := Grid) hfresh).2 fun i j e he =>
      .inr (h i j e he)
    exact ⟨_, after, run_ofMatrix_eq_ok.2 ⟨p, hp, rfl⟩⟩

end OfMatrix

/-! ## Collapsing -/

/-- Collapsed again, the linear matrix is the symbolic one, entry by entry as polynomials. -/
structure Collapses (l : LinearMatrix ℚ) (m : SymMatrix ℚ) : Prop where
  shape : l.shape = m.shape
  shape_toSymbolic : l.toSymbolic.shape = m.shape
  poly : ∀ i j e, m.entry? i j = some e → ∃ e', l.toSymbolic.entry? i j = some e' ∧ e'.poly = e.poly

section Collapse
variable {m : SymMatrix ℚ} {vars : List Symbol} {p : Pencil Grid ℚ}

theorem collapses_of_shape {l : LinearMatrix ℚ} (hshape : l.shape = m.shape)
    (hvalue : ∀ i j e, m.entry? i j = some e → ∀ x : Symbol → ℚ, l.valueAt x i j = e.eval x) :
    l.Collapses m := by
  refine ⟨hshape, hshape, fun i j e he => ?_⟩
  have hin : i < l.shape.1 ∧ j < l.shape.2 := by
    rw [hshape]
    exact Grid.lt_of_entry?_eq_some he
  obtain ⟨e', he', heval⟩ := l.entry?_toSymbolic hin
  exact ⟨e', he', Expr.poly_eq_iff.2 fun x => (heval x).trans (hvalue i j e he x)⟩

/-- Without variables the constant is dropped exactly if all entries denote zero. -/
theorem constant_eq_none_iff (hshape : p.shape = m.shape)
    (hvalue : ∀ i j e, m.entry? i j = some e → ∀ x : Symbol → ℚ,
      (ofPencil p []).valueAt x i j = e.eval x) :
    (ofPencil p []).constant = none ↔ ∀ i j e, m.entry? i j = some e → e.poly = 0 := by
  have hpoly : ∀ i j e, m.entry? i j = some e → (e.poly = 0 ↔ value p.constant i j = 0) := by
    intro i j e he
    have heval : ∀ x : Symbol → ℚ, e.eval x = value p.constant i j := by
      intro x
      rw [← hvalue i j e he x, valueAt_ofPencil, LinearForm.value, List.zipWith_nil_right,
        List.sum_nil, add_zero]
      rfl
    have hzero : (.const 0 : Expr ℚ).poly = 0 := by
      simp [Expr.poly]
    rw [← hzero, Expr.poly_eq_iff]
    simp only [heval, Expr.eval_const, Algebra.algebraMap_self, RingHom.id_apply]
    exact forall_const _
  rw [constant_ofPencil_eq_none]
  constructor
  · intro h i j e he
    have hin : i < p.constant.rows ∧ j < p.constant.cols := by
      obtain ⟨hrows, hcols⟩ := Prod.mk.inj hshape
      rw [hrows, hcols]
      exact Grid.lt_of_entry?_eq_some he
    have hentry := p.constant.entry?_eq_some hin
    rw [hpoly i j e he, Grid.value_eq, hentry, Option.getD_some]
    exact h i j _ hentry
  · intro h i j v hv
    have hin : i < m.rows ∧ j < m.cols := by
      obtain ⟨hrows, hcols⟩ := Prod.mk.inj hshape
      rw [← hrows, ← hcols]
      exact Grid.lt_of_entry?_eq_some hv
    have hentry := m.entry?_eq_some hin
    have hzero := (hpoly i j _ hentry).1 (h i j _ hentry)
    rwa [Grid.value_eq, hv, Option.getD_some] at hzero

end Collapse

/-- When a linear matrix collapses to its source. Its terms have the variables in order, so nothing
is lost if there is one, or if an entry does not denote zero; else there is neither term nor
constant, and what is left is the empty matrix. -/
theorem collapses_iff (m : SymMatrix ℚ) (vars : List Symbol) (supply : NonceSupply)
    (hvars : vars.Nodup) (hfresh : m.IsFresh vars supply) (hkeys : m.KeysFaithful)
    (l : LinearMatrix ℚ) (h : ((ofMatrix m vars).run supply).1 = .ok l) :
    (l.Collapses m ↔
      vars ≠ [] ∨ (∃ i j e, m.entry? i j = some e ∧ e.poly ≠ 0) ∨ m.shape = (0, 0)) ∧
    (¬ l.Collapses m → l = ⟨[], none⟩ ∧ l.shape = (0, 0) ∧ l.toSymbolic.shape = (0, 0)) := by
  obtain ⟨p, rfl, hwell, hshape, hentries⟩ := ofMatrix_eq_ok hvars hfresh hkeys (Prod.ext h rfl)
  have hvalue := fun i j e he => (hentries i j e he).2
  have hkept : vars ≠ [] ∨ (ofPencil p vars).constant ≠ none → (ofPencil p vars).Collapses m :=
    fun hkept => collapses_of_shape ((shape_ofPencil hwell hkept).trans hshape) hvalue
  by_cases hempty : vars = []
  · subst hempty
    have hconstant := constant_eq_none_iff hshape hvalue
    by_cases hnone : (ofPencil p []).constant = none
    · have hl : ofPencil p [] = ⟨[], none⟩ := by
        rw [← hnone]
        rfl
      have hzero := hconstant.1 hnone
      refine ⟨⟨fun hcollapses => ?_, ?_⟩, fun _ => ⟨hl, by rw [hl]; rfl, by rw [hl]; rfl⟩⟩
      · have := hcollapses.shape
        rw [hl] at this
        exact .inr (.inr this.symm)
      · rintro (hne | ⟨i, j, e, he, hpoly⟩ | hshapes)
        · exact absurd rfl hne
        · exact absurd (hzero i j e he) hpoly
        · refine collapses_of_shape ?_ hvalue
          rw [hl, hshapes]
          rfl
    · have hcollapses := hkept (.inr hnone)
      refine ⟨iff_of_true hcollapses (.inr (.inl ?_)), absurd hcollapses⟩
      rw [hconstant] at hnone
      push Not at hnone
      exact hnone
  · have hcollapses := hkept (.inl hempty)
    exact ⟨iff_of_true hcollapses (.inl hempty), absurd hcollapses⟩

/-- A row of a product to multiply out and a difference in which a variable cancels. -/
theorem collapses_iff_of_row :
    let x : Symbol := { name := "x" }
    let y : Symbol := { name := "y" }
    let product : Expr ℚ := .product [.const 2, .sum [.symbol x, .product [.const 3, .symbol y]]]
    let difference : Expr ℚ := .sum [.symbol x, .product [.const (-1), .sum [.symbol x, .symbol y]]]
    let m : SymMatrix ℚ := ⟨1, 2, #[product, difference], rfl⟩
    let supply := NonceSupply.first
    [x, y].Nodup ∧ m.IsFresh [x, y] supply ∧ m.KeysFaithful ∧
      ∃ l, ((ofMatrix m [x, y]).run supply).1 = .ok l ∧ l.constant = none ∧ l.Collapses m := by
  intro x y product difference m supply
  have hvars : [x, y].Nodup := by decide
  have hfresh : m.IsFresh [x, y] supply :=
    SymMatrix.isFresh_of_named (by decide) (by decide +kernel) _
  have hkeys : m.KeysFaithful := SymMatrix.keysFaithful_of_nodup (by decide +kernel)
  have hwritten : ((ofMatrix m [x, y]).run supply).1.toOption.map (·.constant.isNone) =
      some true := by
    decide +kernel
  cases hl : ((ofMatrix m [x, y]).run supply).1 with
  | error failure =>
    rw [hl] at hwritten
    cases hwritten
  | ok l =>
    rw [hl] at hwritten
    obtain ⟨hcollapses, -⟩ := collapses_iff m [x, y] supply hvars hfresh hkeys l hl
    exact ⟨hvars, hfresh, hkeys, l, rfl, Option.isNone_iff_eq_none.1 (Option.some.inj hwritten),
      hcollapses.2 (.inl (List.cons_ne_nil x [y]))⟩

/-- Zeros in two rows and three columns, without variables, become the empty matrix. -/
theorem not_collapses_of_zeros :
    let m : SymMatrix ℚ := SymMatrix.zeros 2 3
    let supply := NonceSupply.first
    ([] : List Symbol).Nodup ∧ m.IsFresh [] supply ∧ m.KeysFaithful ∧
      ∃ l, ((ofMatrix m []).run supply).1 = .ok l ∧ m.shape = (2, 3) ∧ l.shape = (0, 0) ∧
        l.toSymbolic.shape = (0, 0) ∧ ¬ l.Collapses m := by
  intro m supply
  have hshape : ((ofMatrix m []).run supply).1.toOption.map
      (fun l => (l.shape, l.toSymbolic.shape)) = some ((0, 0), (0, 0)) := by
    decide +kernel
  have hfresh : m.IsFresh [] supply :=
    SymMatrix.isFresh_of_named (List.forall_mem_nil _) (by decide +kernel) _
  have hkeys : m.KeysFaithful := SymMatrix.keysFaithful_of_nodup (by decide +kernel)
  cases hl : ((ofMatrix m []).run supply).1 with
  | error failure =>
    rw [hl] at hshape
    cases hshape
  | ok l =>
    rw [hl] at hshape
    obtain ⟨hshape, hsymbolic⟩ := Prod.mk.inj (Option.some.inj hshape)
    refine ⟨List.nodup_nil, hfresh, hkeys, l, rfl, rfl, hshape, hsymbolic, fun hcollapses => ?_⟩
    have heq : (0, 0) = (2, 3) := hshape.symm.trans hcollapses.shape
    cases heq

end LinearMatrix

end Semidefinite
