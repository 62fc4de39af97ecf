import Semidefinite.Proofs.Cutting.Canonical
import Semidefinite.Proofs.Lmi.Symbols
import Semidefinite.Proofs.Pencil

/-!
# Lowering blocks

The blocks of inequalities are lowered one after the other, each with nonces of
its own (`lowerBlocks_eq_ok`). Where the nonces are fresh, lowering succeeds
exactly if every entry of the canonical matrices is readable
(`exists_lowerBlocks_iff`): the entries that cutting leaves out denote zero, and
those are readable anyhow.
-/

namespace Semidefinite

section Fresh
variable {K : Type} [Scalar K]

/-- None of the nonces that lowering the blocks draws is a variable or occurs in an inequality. -/
def FreshNonces (lmis : List (Lmi K)) (vars : List Symbol) (cutting : Cutting)
    (supply : NonceSupply) : Prop :=
  ∀ blocks, canonicalBlocks lmis cutting = .ok blocks →
    ∀ k < (blocks.map SymMatrix.drawCount).sum,
      (supply.advance k).peek ∉ vars ∧ ∀ l ∈ lmis, (supply.advance k).peek ∉ l.freeSymbols

/-- No nonce is met again as long as the serial numbers have not started again. -/
theorem freshNonces_of_drawn {lmis : List (Lmi K)} {vars : List Symbol} {cutting : Cutting}
    {supply : NonceSupply}
    (hdrawn : ∀ s ∈ vars ++ lmis.flatMap Lmi.freeSymbols, ∀ n, s.serial = some n → n < supply.next)
    (hroom : ∀ blocks, canonicalBlocks lmis cutting = .ok blocks →
      supply.next.toNat + (blocks.map SymMatrix.drawCount).sum ≤ 2 ^ 32) :
    FreshNonces lmis vars cutting supply := by
  intro blocks hblocks k hk
  have hcount := hroom blocks hblocks
  have hnew := NonceSupply.peek_advance_not_mem (k := k) hdrawn (by omega)
  rw [List.mem_append, List.mem_flatMap, not_or] at hnew
  exact ⟨hnew.1, fun l hl hs => hnew.2 ⟨l, hl, hs⟩⟩

theorem freshNonces_of_named {lmis : List (Lmi K)} {vars : List Symbol} {cutting : Cutting}
    {supply : NonceSupply}
    (hnamed : ∀ s ∈ vars ++ lmis.flatMap Lmi.freeSymbols, s.isNonce = false) :
    FreshNonces lmis vars cutting supply := by
  intro blocks _ k _
  have hnew : (supply.advance k).peek ∉ vars ++ lmis.flatMap Lmi.freeSymbols := by
    intro hmem
    cases hnamed _ hmem
  rw [List.mem_append, List.mem_flatMap, not_or] at hnew
  exact ⟨hnew.1, fun l hl hs => hnew.2 ⟨l, hl, hs⟩⟩

theorem FreshNonces.isFresh {lmis : List (Lmi K)} {vars : List Symbol} {cutting : Cutting}
    {supply : NonceSupply} {blocks : List (SymMatrix K)}
    (hfresh : FreshNonces lmis vars cutting supply)
    (hblocks : canonicalBlocks lmis cutting = .ok blocks) {m : SymMatrix K} (hm : m ∈ blocks)
    {k : Nat} (hk : k + m.drawCount ≤ (blocks.map SymMatrix.drawCount).sum) :
    m.IsFresh vars (supply.advance k) := by
  intro k' hk'
  rw [NonceSupply.advance_advance]
  obtain ⟨hvars, hlmis⟩ := hfresh blocks hblocks (k + k') (by omega)
  refine ⟨hvars, fun i j e he hs => ?_⟩
  obtain ⟨l, hl, hs⟩ := mem_freeSymbols_canonicalBlocks hblocks hm
    (SymMatrix.mem_freeSymbols.2 ⟨i, j, e, he, hs⟩)
  exact hlmis l hl hs

end Fresh

section Runs
variable {K : Type} [Scalar K] {S : Type → Type} [Storage S] {lmis : List (Lmi K)}
  {vars : List Symbol} {cutting : Cutting} {supply supply' : NonceSupply}
  {pencils : List (Pencil S K)}

theorem lowerBlocks_run_eq_ok :
    (lowerBlocks S lmis vars cutting).run supply = (.ok pencils, supply') ↔
      ∃ blocks, canonicalBlocks lmis cutting = .ok blocks ∧
        (blocks.mapM fun m => Pencil.extract S m vars).run supply = (.ok pencils, supply') := by
  unfold lowerBlocks
  rw [Lowering.run_bind_eq_ok]
  have hrun : (ExceptT.mk (pure (canonicalBlocks lmis cutting)) :
      Lowering LmiError (List (SymMatrix K))).run supply =
        (canonicalBlocks lmis cutting, supply) := rfl
  refine ⟨?_, ?_⟩
  · rintro ⟨blocks, between, hblocks, h⟩
    rw [hrun, Prod.mk.injEq] at hblocks
    obtain ⟨hblocks, rfl⟩ := hblocks
    exact ⟨blocks, hblocks, h⟩
  · rintro ⟨blocks, hblocks, h⟩
    exact ⟨blocks, supply, hrun.trans (congrArg (·, supply) hblocks), h⟩

/-- The blocks are extracted one after the other, each with nonces of its own. -/
theorem lowerBlocks_eq_ok
    (h : (lowerBlocks S lmis vars cutting).run supply = (.ok pencils, supply')) :
    ∃ blocks, canonicalBlocks lmis cutting = .ok blocks ∧
      List.Forall₂ (fun m pencil => m ∈ blocks ∧ ∃ k after,
        k + m.drawCount ≤ (blocks.map SymMatrix.drawCount).sum ∧
        (Pencil.extract S m vars).run (supply.advance k) = (.ok pencil, after)) blocks pencils := by
  obtain ⟨blocks, hblocks, h⟩ := lowerBlocks_run_eq_ok.1 h
  exact ⟨blocks, hblocks, (Lowering.mapM_eq_ok (fun _ _ _ _ _ => Pencil.extract_supply) h).2⟩

end Runs

section Lowering
variable {S : Type → Type} [Storage S] [FaithfulStorage S ℚ] {lmis : List (Lmi ℚ)}
  {vars : List Symbol} {cutting : Cutting} {supply : NonceSupply} {blocks : List (SymMatrix ℚ)}

theorem exists_lowerBlocks_iff_of_blocks (hfresh : FreshNonces lmis vars cutting supply)
    (hblocks : canonicalBlocks lmis cutting = .ok blocks) :
    (∃ (pencils : List (Pencil S ℚ)) (after : NonceSupply),
        (lowerBlocks S lmis vars cutting).run supply = (.ok pencils, after)) ↔
      ∀ b ∈ blocks, ∀ i j e, Grid.entry? b i j = some e → e.Readable vars := by
  refine ⟨?_, fun h => ?_⟩
  · rintro ⟨pencils, after, hrun⟩ b hb
    obtain ⟨blocks', hblocks', hpencils⟩ := lowerBlocks_eq_ok hrun
    obtain rfl : blocks = blocks' := Except.ok.inj (hblocks.symm.trans hblocks')
    obtain ⟨pencil, -, -, k, between, hk, hextract⟩ := exists_of_mem_right hpencils.flip hb
    exact (Pencil.exists_extract_iff (hfresh.isFresh hblocks hb hk)).1 ⟨pencil, between, hextract⟩
  · have hextracts : ∀ b ∈ blocks, ∀ k,
        k + SymMatrix.drawCount b ≤ (blocks.map SymMatrix.drawCount).sum →
        ∃ (pencil : Pencil S ℚ) (after : NonceSupply),
          (Pencil.extract S b vars).run (supply.advance k) = (.ok pencil, after) :=
      fun b hb k hk => (Pencil.exists_extract_iff (hfresh.isFresh hblocks hb hk)).2 (h b hb)
    obtain ⟨pencils, after, hrun⟩ :=
      Lowering.exists_mapM_eq_ok (fun _ _ _ _ _ => Pencil.extract_supply) hextracts
    exact ⟨pencils, after, lowerBlocks_run_eq_ok.2 ⟨blocks, hblocks, hrun⟩⟩

/-- Lowering succeeds exactly if every entry of the canonical matrices is readable. -/
theorem exists_lowerBlocks_iff {ms : List (BlockMatrix ℚ)}
    (hms : lmis.mapM Lmi.canonicalMatrix = .ok ms) (hsquare : ∀ m ∈ ms, m.IsSquare)
    (hfresh : FreshNonces lmis vars cutting supply) :
    (∃ (pencils : List (Pencil S ℚ)) (after : NonceSupply),
        (lowerBlocks S lmis vars cutting).run supply = (.ok pencils, after)) ↔
      ∀ i j e, Grid.entry? (SymMatrix.blockDiagonal (ms.map BlockMatrix.toDense)) i j = some e →
        e.Readable vars := by
  obtain ⟨blocks, hblocks⟩ := exists_canonicalBlocks hms hsquare cutting
  rw [exists_lowerBlocks_iff_of_blocks hfresh hblocks]
  exact (isCutInto_canonicalBlocks hms hblocks).forall_entries_iff fun e he =>
    Expr.readable_of_poly_eq_zero he

end Lowering

end Semidefinite
