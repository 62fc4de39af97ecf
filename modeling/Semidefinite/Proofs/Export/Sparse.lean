import Semidefinite.Export.Sdpa
import Semidefinite.Proofs.Expr.Nonce
import Semidefinite.Proofs.InStep
import Semidefinite.Proofs.Problem
import Semidefinite.Proofs.Storage.Agreement
import Semidefinite.Proofs.Storage.Backends

/-!
# Sparse files

A sparse file lists what is kept in the matrices of a problem in numbers, so problems
that agree matrix by matrix have one file (`Sdpa.renderSparse_eq`). With any two
storages a problem is put into numbers in step, as long as every form is read alike
(`Problem.inStep_numeric`); it is with the same nonces, and with any that are fresh.
-/

namespace Semidefinite

variable {K : Type} [Scalar K]

/-! ## Matrices and problems read in step -/

/-- Each entry has the same form with the nonces of both supplies. -/
def SymMatrix.ReadAlike (m : SymMatrix K) (vars : List Symbol) (s t : NonceSupply) : Prop :=
  ∀ p ∈ m.formCells, ∀ k < m.drawCount,
    LinearForm.ofExpr (s.advance k).peek p.2 vars = LinearForm.ofExpr (t.advance k).peek p.2 vars

theorem SymMatrix.IsFresh.readAlike [LawfulOne K] {m : SymMatrix K} {vars : List Symbol}
    {s t : NonceSupply} (hs : m.IsFresh vars s) (ht : m.IsFresh vars t) : m.ReadAlike vars s t := by
  intro p hp k hk
  have hentry := (mem_formCells.1 hp).1
  rw [LinearForm.ofExpr_eq_plainForm (hs k hk).1 ((hs k hk).2 _ _ _ hentry),
    LinearForm.ofExpr_eq_plainForm (ht k hk).1 ((ht k hk).2 _ _ _ hentry)]

section Matrices
variable {S T : Type → Type} [Storage S] [Storage T]

theorem SymMatrix.inStep_linearForms {m : SymMatrix K} {vars : List Symbol} {s t : NonceSupply}
    (h : m.ReadAlike vars s t) :
    Lowering.InStep Eq m.drawCount (m.linearForms vars) s (m.linearForms vars) t := by
  have hcount : (m.formCells.map fun _ => 1).sum = m.drawCount := by
    simp [drawCount]
  rw [linearForms_eq, ← hcount]
  refine (Lowering.inStep_mapM (R := Eq) fun p hp k hk => ?_).mono fun a b hab =>
    List.forall₂_eq_eq_eq ▸ hab
  refine (Lowering.inStep_linearForm (h p hp k (by omega)) _).bind (n := 0)
    fun form form' hform _ => ?_
  rw [hform]
  exact Lowering.inStep_pure rfl

variable [FaithfulStorage S K] [FaithfulStorage T K]

theorem Pencil.inStep_extract {m : SymMatrix K} {vars : List Symbol} {s t : NonceSupply}
    (h : m.ReadAlike vars s t) :
    Lowering.InStep Pencil.Agree m.drawCount (extract S m vars) s (extract T m vars) t := by
  refine (SymMatrix.inStep_linearForms h).bind (n := 0) fun forms forms' hforms hrun => ?_
  obtain ⟨p, hp⟩ := exists_ofForms_of_linearForms (S := S) (congrArg Prod.fst hrun)
  obtain ⟨q, hq⟩ := exists_ofForms_of_linearForms (S := T) (congrArg Prod.fst hrun)
  rw [← hforms, hp, hq]
  exact Lowering.inStep_pure (agree_of_ofForms
    (SymMatrix.cells_linearForms hrun ▸ m.nodup_formCells)
    (SymMatrix.inside_of_linearForms hrun) hp hq)

end Matrices

namespace Problem

/-- The objective and each entry of the blocks have the same forms with the nonces of both
supplies. -/
structure ReadAlike (p : Problem K) (sense : Sense) (cutting : Cutting) (s t : NonceSupply) :
    Prop where
  objective : LinearForm.ofExpr s.peek (sense.target p.objective) p.vars =
    LinearForm.ofExpr t.peek (sense.target p.objective) p.vars
  blocks : ∀ blocks, canonicalBlocks p.lmis cutting = .ok blocks → ∀ m ∈ blocks, ∀ k,
    k + m.drawCount ≤ (blocks.map SymMatrix.drawCount).sum →
      m.ReadAlike p.vars ((s.advance 1).advance k) ((t.advance 1).advance k)

variable {p : Problem K} {sense : Sense} {cutting : Cutting} {s t : NonceSupply}

theorem readAlike_self (p : Problem K) (sense : Sense) (cutting : Cutting) (s : NonceSupply) :
    p.ReadAlike sense cutting s s :=
  ⟨rfl, fun _ _ _ _ _ _ _ _ _ _ => rfl⟩

theorem ReadAlike.symm (h : p.ReadAlike sense cutting s t) : p.ReadAlike sense cutting t s :=
  ⟨h.objective.symm, fun blocks hblocks m hm k hk q hq k' hk' =>
    (h.blocks blocks hblocks m hm k hk q hq k' hk').symm⟩

theorem readAlike_of_fresh [LawfulOne K]
    (hs : p.DrawsFresh cutting s) (ht : p.DrawsFresh cutting t) :
    p.ReadAlike sense cutting s t := by
  have hobjective : ∀ u : NonceSupply, p.DrawsFresh cutting u →
      LinearForm.ofExpr u.peek (sense.target p.objective) p.vars =
        LinearForm.plainForm (sense.target p.objective) p.vars := by
    intro u hu
    have hfirst := hu 0 (drawCount_pos p cutting)
    rw [NonceSupply.advance_zero] at hfirst
    obtain ⟨hvars, hoccurs, -⟩ := not_mem_of_fresh hfirst
    exact LinearForm.ofExpr_eq_plainForm hvars fun hmem =>
      hoccurs (Sense.mem_occurrences_target hmem)
  refine ⟨(hobjective s hs).trans (hobjective t ht).symm, fun blocks hblocks m hm k hk => ?_⟩
  exact (isFresh_of_mem_blocks hs hblocks hm hk).readAlike (isFresh_of_mem_blocks ht hblocks hm hk)

end Problem

/-! ## Problems in numbers -/

section Numbers
variable {S T : Type → Type} [Storage S] [Storage T]

/-- The problems have one objective, and their pencils agree. -/
structure NumericProblem.Agree (p : NumericProblem S K) (q : NumericProblem T K) : Prop where
  objective : p.objective = q.objective
  blocks : List.Forall₂ Pencil.Agree p.blocks q.blocks

theorem NumericProblem.Agree.blockSizes {p : NumericProblem S K} {q : NumericProblem T K}
    (h : p.Agree q) : p.blockSizes = q.blockSizes :=
  map_eq_map_of_forall₂ (h.blocks.imp fun _ _ hpencil => congrArg Prod.fst hpencil.constant.shape)

theorem Problem.inStep_numeric [FaithfulStorage S K] [FaithfulStorage T K] {p : Problem K}
    {sense : Sense} {cutting : Cutting} {s t : NonceSupply} (h : p.ReadAlike sense cutting s t) :
    ∃ count, Lowering.InStep NumericProblem.Agree count (p.numeric S sense cutting) s
      (p.numeric T sense cutting) t := by
  have hobjective : Lowering.InStep Eq 1 (p.objectiveCoefficients sense) s
      (p.objectiveCoefficients sense) t := by
    unfold objectiveCoefficients
    rw [objectiveCoefficients_eq]
    refine (Lowering.inStep_linearForm h.objective _).bind (n := 0) fun form form' hform _ => ?_
    rw [hform]
    exact Lowering.inStep_pure rfl
  have hblocks : ∃ count, Lowering.InStep (List.Forall₂ Pencil.Agree) count
      (lowerBlocks S p.lmis p.vars cutting) (s.advance 1)
      (lowerBlocks T p.lmis p.vars cutting) (t.advance 1) := by
    refine ⟨0 + (((canonicalBlocks p.lmis cutting).toOption.getD []).map SymMatrix.drawCount).sum,
      (Lowering.inStep_of_result fun _ => rfl).bind ?_⟩
    rintro blocks _ ⟨rfl, hcanonical⟩ -
    rw [hcanonical, NonceSupply.advance_zero, NonceSupply.advance_zero]
    exact Lowering.inStep_mapM fun m hm k hk =>
      Pencil.inStep_extract (h.blocks blocks hcanonical m hm k hk)
  obtain ⟨count, hblocks⟩ := hblocks
  refine ⟨1 + (count + 0), hobjective.bind fun objective _ hobjective _ => ?_⟩
  exact hblocks.bind fun _ _ hpencils _ => Lowering.inStep_pure ⟨hobjective, hpencils⟩

end Numbers

namespace Sdpa

section Rendering
variable {S T : Type → Type} [Storage S] [Storage T]

theorem elementAt_map {α β : Type} (f : α → β) (items : List α) (index : Nat) :
    elementAt (items.map f) index = f <$> elementAt items index := by
  unfold elementAt
  rw [List.getElem?_map, List.length_map]
  cases items[index]? <;> rfl

theorem upperEntries_eq {m : S K} {m' : T K} (h : Storage.Agree m m') :
    upperEntries m = upperEntries m' := by
  unfold upperEntries
  rw [h.nonzeros]

variable {p : NumericProblem S K} {q : NumericProblem T K} (h : p.Agree q)
include h

theorem headerLines_eq : headerLines p = headerLines q := by
  unfold headerLines NumericProblem.variableCount
  rw [h.objective, h.blocks.length_eq, h.blockSizes]

theorem constantLines_eq : constantLines p = constantLines q := by
  unfold constantLines
  rw [List.flatMap_def, List.flatMap_def]
  refine congrArg List.flatten (map_eq_map_of_forall₂ ((forall₂_zipIdx h.blocks 0).imp ?_))
  rintro ⟨pencil, b⟩ ⟨pencil', b'⟩ ⟨hpencil, hb⟩
  obtain rfl : b = b' := hb
  simp only [upperEntries_eq hpencil.constant]

theorem coefficientLines_eq (k : Nat) : coefficientLines p k = coefficientLines q k := by
  unfold coefficientLines
  refine congrArg _ (mapM_eq_mapM_of_forall₂ ((forall₂_zipIdx h.blocks 0).imp ?_))
  rintro ⟨pencil, b⟩ ⟨pencil', b'⟩ ⟨hpencil, hb⟩
  obtain rfl : b = b' := hb
  have hentries : pencil.coefficients.map upperEntries = pencil'.coefficients.map upperEntries :=
    map_eq_map_of_forall₂ (hpencil.coefficients.imp fun _ _ => upperEntries_eq)
  have hread : upperEntries <$> elementAt pencil.coefficients k =
      upperEntries <$> elementAt pencil'.coefficients k := by
    rw [← elementAt_map, ← elementAt_map, hentries]
  have hlines := congrArg (List.map (entryLine (k + 1) (b + 1)) <$> ·) hread
  simp only [bind_pure_comp]
  simpa only [Functor.map_map] using hlines

theorem renderSparse_eq (comment : Option String) :
    renderSparse p comment = renderSparse q comment := by
  have hlines : coefficientLines p = coefficientLines q := funext fun k => coefficientLines_eq h k
  unfold renderSparse sparseLines NumericProblem.variableCount
  rw [h.objective, hlines, headerLines_eq h, constantLines_eq h]

end Rendering

/-! ## Exporting a problem -/

theorem inStep_exportSparse [LawfulStart K] {p : Problem K} {config : ExportConfig}
    {s t : NonceSupply} (h : p.ReadAlike config.sense config.cutting s t) (b b' : Option Backend) :
    ∃ count, Lowering.InStep Eq count (exportSparse p { config with backend := b }) s
      (exportSparse p { config with backend := b' }) t := by
  obtain ⟨count, hnumeric⟩ := Problem.inStep_numeric (S := (b.getD .rowLists).Store)
    (T := (b'.getD .rowLists).Store) h
  have hfile : ∀ b : Option Backend, exportSparse p { config with backend := b } = (do
      let numeric ← Lowering.mapError ExportError.problem
        (p.numeric (b.getD .rowLists).Store config.sense config.cutting)
      Lowering.ofFault (renderSparse numeric config.comment)) := fun _ => rfl
  rw [hfile, hfile]
  refine ⟨count + 0, (hnumeric.mapError ExportError.problem).bind fun p q hagree _ => ?_⟩
  rw [renderSparse_eq hagree]
  have hresult : ∀ supply, (Lowering.ofFault (ε := ExportError)
      (renderSparse q config.comment)).run supply =
        ((renderSparse q config.comment).mapError .fault, supply) := by
    intro supply
    cases renderSparse q config.comment <;> rfl
  exact (Lowering.inStep_of_result hresult).mono fun _ _ hab => hab.1

/-- The objective and the constraints are put together before anything is read. -/
theorem inStep_sparseFile [LawfulStart K] {objective : Expr K} {lmis : List (Lmi K)}
    {vars : List Symbol} {config : ExportConfig} {s t : NonceSupply}
    (h : Problem.ReadAlike ⟨objective, lmis, vars⟩ config.sense config.cutting s t)
    (b b' : Option Backend) :
    ∃ count, Lowering.InStep Eq count
      (sparseFile objective lmis vars { config with backend := b }) s
      (sparseFile objective lmis vars { config with backend := b' }) t := by
  obtain ⟨count, hexport⟩ := inStep_exportSparse h b b'
  have hresult : ∀ supply, (Lowering.mapError ExportError.problem (Lowering.ofExcept
      (Problem.make objective lmis vars)) : Lowering ExportError (Problem K)).run supply =
        ((Problem.make objective lmis vars).mapError fun e => .error (.problem e), supply) := by
    intro supply
    cases Problem.make objective lmis vars <;> rfl
  refine ⟨0 + count, (Lowering.inStep_of_result hresult).bind ?_⟩
  rintro p _ ⟨rfl, hp⟩ -
  obtain ⟨rfl, -⟩ := Problem.make_eq_ok (Except.mapError_eq_ok.1 hp)
  rw [NonceSupply.advance_zero, NonceSupply.advance_zero]
  exact hexport

end Sdpa

end Semidefinite
