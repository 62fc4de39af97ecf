import Semidefinite.Proofs.Export.Entries
import Semidefinite.Proofs.Problem

/-!
# What exporters are given

The numbers of a problem are made out of writes into cells of the blocks, none of
which lies outside, so putting a problem into numbers does not fault
(`Problem.neverFaults_numeric`). The matrices of each block have its shape and list
what they read (`Problem.isListed_numeric`). They are square if the blocks are: where
blocks are cut finely or symmetry was checked (`square_of_mem_canonicalBlocks`), and
nowhere else is it looked at.
-/

namespace Semidefinite

open Storage

variable {K : Type} [Scalar K] {S : Type → Type} [Storage S]

/-! ## Matrices of a pencil -/

namespace Pencil
variable [FaithfulStorage S K] {m : SymMatrix K} {vars : List Symbol} {pencil : Pencil S K}

/-- There is a matrix for each variable, and all matrices have the shape of the source and list
what they read. -/
theorem lists_of_extract {supply after : NonceSupply}
    (h : (extract S m vars).run supply = (.ok pencil, after)) :
    pencil.coefficients.length = vars.length ∧
      ∀ M ∈ pencil.matrices, Storage.shape M = m.shape ∧ Lists M := by
  obtain ⟨forms, -, hcells, hinside, hp⟩ := exists_forms_of_extract (congrArg Prod.fst h)
  have hnodup : (forms.map Prod.fst).Nodup := hcells ▸ m.nodup_formCells
  obtain ⟨hconstant, hcoefficients⟩ := holds_of_ofForms hnodup hinside hp
  have hlists : ∀ (part : LinearForm K → Option K) (M : S K),
      Holds M m.shape.1 m.shape.2 (Write.ofEntries (LinearForm.parts forms part)) →
      Storage.shape M = m.shape ∧ Lists M :=
    fun part _ hholds => ⟨hholds.shape, hholds.lists (Write.admissible_parts hnodup hinside part)⟩
  refine ⟨by rw [← hcoefficients.length_eq, List.length_range], fun M hM => ?_⟩
  rcases List.mem_cons.1 hM with rfl | hM
  · exact hlists _ _ hconstant
  · obtain ⟨k, -, hk⟩ := exists_of_mem_right hcoefficients hM
    exact hlists _ M hk

end Pencil

/-- Each block is lowered to one matrix for each variable and a constant. They have its shape and
list what they read. -/
theorem lists_of_lowerBlocks [FaithfulStorage S K] {lmis : List (Lmi K)} {vars : List Symbol}
    {cutting : Cutting} {supply after : NonceSupply} {pencils : List (Pencil S K)}
    (h : (lowerBlocks S lmis vars cutting).run supply = (.ok pencils, after)) :
    ∃ blocks, canonicalBlocks lmis cutting = .ok blocks ∧
      List.Forall₂ (fun m pencil => pencil.shape = Grid.shape m ∧
        pencil.coefficients.length = vars.length ∧
        ∀ M ∈ pencil.matrices, Storage.shape M = pencil.shape ∧ Lists M) blocks pencils := by
  obtain ⟨blocks, hblocks, hpencils⟩ := lowerBlocks_eq_ok h
  refine ⟨blocks, hblocks, hpencils.imp ?_⟩
  rintro m pencil ⟨-, k, between, -, hextract⟩
  obtain ⟨hlength, hmatrices⟩ := Pencil.lists_of_extract hextract
  have hshape : pencil.shape = Grid.shape m := (hmatrices _ List.mem_cons_self).1
  exact ⟨hshape, hlength, fun M hM => ⟨(hmatrices M hM).1.trans hshape.symm, (hmatrices M hM).2⟩⟩

/-! ## Blocks -/

section Blocks
variable {cutting : Cutting} {lmis : List (Lmi K)} {blocks : List (SymMatrix K)}

theorem SymMatrix.Irreducible.square {m : SymMatrix K} (h : m.Irreducible) : m.rows = m.cols :=
  (splitBlocks_eq_ok h.split).1

/-- Blocks that are cut finely are square, and so are all blocks of a square matrix. -/
theorem BlockMatrix.square_of_mem_cut {m : BlockMatrix K} (h : m.cut cutting = .ok blocks)
    (hsquare : cutting = .finest ∨ m.IsSquare) {b : SymMatrix K} (hb : b ∈ blocks) :
    b.rows = b.cols := by
  rcases hsquare with rfl | hsquare
  · exact (irreducible_of_mem_cut h (.inl rfl) hb).square
  · rcases cut_cases h with rfl | rfl | ⟨w, rfl, hsplit⟩ | ⟨parts, lists, rfl, rfl, hlists⟩
    · rw [List.mem_singleton.1 hb, m.rows_toDense, m.cols_toDense]
      exact hsquare.shape
    · exact hsquare.carried _ rfl b hb
    · exact (SymMatrix.irreducible_of_mem_splitBlocks hsplit hb).square
    · obtain ⟨list, hlist, hb⟩ := List.mem_flatten.1 hb
      obtain ⟨p, -, hp⟩ := exists_of_mem_right (Except.forall₂_of_mapM_eq_ok hlists) hlist
      exact (SymMatrix.irreducible_of_mem_splitBlocks hp hb).square

variable [LawfulZero K]

/-- All blocks are square if they are cut finely or the symmetry of all sides was checked. -/
theorem square_of_mem_canonicalBlocks (h : canonicalBlocks lmis cutting = .ok blocks)
    (hsquare : cutting = .finest ∨
      ∀ l ∈ lmis, ∃ lhs rhs kind, Lmi.make lhs rhs kind true = .ok l)
    {b : SymMatrix K} (hb : b ∈ blocks) : b.rows = b.cols := by
  obtain ⟨ms, hms⟩ := exists_matrices_of_canonicalBlocks h
  obtain ⟨lists, rfl, hlists⟩ := exists_lists_of_canonicalBlocks hms h
  obtain ⟨own, hown, hb⟩ := List.mem_flatten.1 hb
  obtain ⟨m, hm, hcut⟩ := exists_of_mem_right hlists hown
  exact BlockMatrix.square_of_mem_cut hcut
    (hsquare.imp id fun hlmis => isSquare_of_mem_matrices hlmis hms hm) hb

/-- A matrix that cannot be cut is an error. -/
theorem canonicalBlocks_ne_fault (hchecked : ∀ l ∈ lmis, Lmi.checkOperands l.lhs l.rhs = .ok ())
    (hroom : ∀ l ∈ lmis, l.HasRoomFor cutting) (f : Fault) :
    canonicalBlocks lmis cutting ≠ .error (.fault f) := by
  intro h
  rcases of_canonicalBlocks_eq_error hchecked h with ⟨_, _, -, ⟨⟩⟩ | ⟨l, hl, hnone, -⟩
  exact hnone (hroom l hl)

end Blocks

/-! ## Problems in numbers -/

/-- There is one coefficient matrix per variable in every block, and the matrices of a block have
its shape and list what they read. -/
structure NumericProblem.IsListed (p : NumericProblem S K) : Prop where
  complete : p.IsComplete
  shapes : ∀ block ∈ p.blocks, ∀ m ∈ block.matrices, Storage.shape m = block.shape
  lists : ∀ block ∈ p.blocks, ∀ m ∈ block.matrices, Lists m

theorem LinearForm.length_of_ofExpr {nonce : Symbol} {e : Expr K} {vars : List Symbol}
    {form : LinearForm K} (h : ofExpr nonce e vars = .ok form) :
    form.coefficients.length = vars.length := by
  unfold ofExpr at h
  split at h
  · cases h
    simp [ofTerms]
  · cases h

namespace Problem
variable [FaithfulStorage S K] {p : Problem K} {sense : Sense} {cutting : Cutting}

/-- The numbers have a variable for each of the problem's, and a block in the shape of each of its
blocks. -/
theorem isListed_numeric {supply : NonceSupply} {numbers : NumericProblem S K}
    (h : ((p.numeric S sense cutting).run supply).1 = .ok numbers) :
    numbers.IsListed ∧ numbers.variableCount = p.vars.length ∧
      ∃ blocks, canonicalBlocks p.lmis cutting = .ok blocks ∧
        List.Forall₂ (fun m pencil => pencil.shape = Grid.shape m) blocks numbers.blocks := by
  obtain ⟨after, hobjective, hpencils⟩ := numeric_eq_ok h
  obtain ⟨form, hform, hcoefficients, -⟩ := run_objectiveCoefficients_eq_ok.1 hobjective
  have hcount : numbers.variableCount = p.vars.length := by
    rw [NumericProblem.variableCount, ← hcoefficients, LinearForm.length_of_ofExpr hform]
  obtain ⟨blocks, hblocks, hpencils⟩ := lists_of_lowerBlocks hpencils
  refine ⟨⟨fun pencil hpencil => ?_, fun pencil hpencil => ?_, fun pencil hpencil => ?_⟩,
    hcount, blocks, hblocks, hpencils.imp fun _ _ hpencil => hpencil.1⟩
  all_goals obtain ⟨m, -, -, hlength, hmatrices⟩ := exists_of_mem_right hpencils hpencil
  · exact hlength.trans hcount.symm
  · exact fun M hM => (hmatrices M hM).1
  · exact fun M hM => (hmatrices M hM).2

/-- What is written lies inside the blocks, and a matrix that there is room for but that cannot be
cut is an error. -/
theorem neverFaults_numeric [LawfulZero K]
    (hchecked : ∀ l ∈ p.lmis, Lmi.checkOperands l.lhs l.rhs = .ok ())
    (hroom : ∀ l ∈ p.lmis, l.HasRoomFor cutting) : (p.numeric S sense cutting).NeverFaults := by
  have hobjective : (p.objectiveCoefficients sense).NeverFaults := by
    unfold objectiveCoefficients
    rw [objectiveCoefficients_eq]
    exact (Lowering.neverFaults_adapt _ _).bind fun _ _ _ _ => Lowering.neverFaults_pure _
  have hblocks : (lowerBlocks S p.lmis p.vars cutting).NeverFaults := by
    refine Lowering.NeverFaults.bind (fun supply f after hrun => ?_) fun _ blocks _ _ =>
      Lowering.neverFaults_mapM fun m _ => Pencil.neverFaults_extract m p.vars
    exact canonicalBlocks_ne_fault hchecked hroom f (Prod.mk.inj hrun).1
  exact hobjective.bind fun _ _ _ _ => hblocks.bind fun _ _ _ _ => Lowering.neverFaults_pure _

end Problem

end Semidefinite
