import Semidefinite.Proofs.Expr.Occurrences
import Semidefinite.Proofs.Lmi.Entries

/-!
# Symbols of blocks

Canonical matrices and their blocks are built from the entries of the sides, so
the symbols in the blocks of inequalities are symbols of the inequalities
(`mem_freeSymbols_canonicalBlocks`).
-/

namespace Semidefinite

variable {K : Type} {s : Symbol}

theorem Expr.keptByDifference_occurrences [Scalar K] (S : Symbol → Prop) :
    KeptByDifference fun e : Expr K => ∀ s ∈ e.occurrences, S s where
  zero := by simp [Expr.zero, Expr.occurrences]
  negate h s hs := h s (mem_occurrences_negate hs)
  sub ha hb s hs := (mem_occurrences_sub hs).elim (ha s) (hb s)

namespace SymMatrix

theorem mem_freeSymbols {m : SymMatrix K} :
    s ∈ m.freeSymbols ↔ ∃ i j e, m.entry? i j = some e ∧ s ∈ e.occurrences := by
  unfold freeSymbols
  rw [mem_ascending, List.mem_flatMap]
  refine ⟨?_, ?_⟩
  · rintro ⟨e, he, hs⟩
    obtain ⟨i, j, hentry⟩ := Grid.mem_entries.1 he
    exact ⟨i, j, e, hentry, hs⟩
  · rintro ⟨i, j, e, hentry, hs⟩
    exact ⟨e, Grid.mem_entries.2 ⟨i, j, hentry⟩, hs⟩

theorem allEntries_occurrences {m : SymMatrix K} {S : Symbol → Prop} :
    m.AllEntries (fun e => ∀ s ∈ e.occurrences, S s) ↔ ∀ s ∈ m.freeSymbols, S s := by
  constructor
  · intro h s hs
    obtain ⟨i, j, e, he, hs⟩ := mem_freeSymbols.1 hs
    exact h i j e he s hs
  · exact fun h i j e he s hs => h s (mem_freeSymbols.2 ⟨i, j, e, he, hs⟩)

end SymMatrix

namespace BlockMatrix

theorem mem_freeSymbols_blocks {parts : List (SymMatrix K)} :
    s ∈ (blocks parts).freeSymbols ↔ ∃ m ∈ parts, s ∈ SymMatrix.freeSymbols m := by
  unfold freeSymbols
  rw [mem_ascending, List.mem_flatMap]

theorem mem_freeSymbols_iff_parts {m : BlockMatrix K} :
    s ∈ m.freeSymbols ↔ ∃ p ∈ m.parts, s ∈ SymMatrix.freeSymbols p := by
  cases m with
  | whole m => simp [freeSymbols, parts]
  | blocks parts => exact mem_freeSymbols_blocks

theorem allEntries_occurrences {m : BlockMatrix K} {S : Symbol → Prop} :
    m.AllEntries (fun e => ∀ s ∈ e.occurrences, S s) ↔ ∀ s ∈ m.freeSymbols, S s := by
  simp only [AllEntries, SymMatrix.allEntries_occurrences, mem_freeSymbols_iff_parts]
  exact ⟨fun h s ⟨p, hp, hs⟩ => h p hp s hs, fun h p hp s hs => h s ⟨p, hp, hs⟩⟩

variable [Scalar K]

theorem mem_freeSymbols_toDense {m : BlockMatrix K}
    (hs : s ∈ SymMatrix.freeSymbols m.toDense) : s ∈ m.freeSymbols := by
  have hm : m.AllEntries fun e => ∀ s ∈ e.occurrences, s ∈ m.freeSymbols :=
    allEntries_occurrences.2 fun _ hs => hs
  exact SymMatrix.allEntries_occurrences.1
    (hm.toDense (Expr.keptByDifference_occurrences _).zero) s hs

end BlockMatrix

namespace Lmi

theorem mem_freeSymbols_of_isSide {l : Lmi K} {m : BlockMatrix K} (hm : l.IsSide m)
    (hs : s ∈ m.freeSymbols) : s ∈ l.freeSymbols := by
  rw [freeSymbols, mem_ascending, List.mem_append]
  rcases hm with hm | hm
  · exact .inl (by rwa [hm])
  · exact .inr (by rwa [hm])

theorem mem_freeSymbols_canonicalMatrix [Scalar K] {l : Lmi K} {m : BlockMatrix K}
    (h : l.canonicalMatrix = .ok m) (hs : s ∈ m.freeSymbols) : s ∈ l.freeSymbols := by
  have hside : ∀ n, l.IsSide n → n.AllEntries fun e => ∀ s ∈ e.occurrences, s ∈ l.freeSymbols :=
    fun _ hn => BlockMatrix.allEntries_occurrences.2 fun _ => mem_freeSymbols_of_isSide hn
  exact BlockMatrix.allEntries_occurrences.1
    (allEntries_canonicalMatrix (Expr.keptByDifference_occurrences _) hside h) s hs

end Lmi

/-- The symbols in the blocks of inequalities are symbols of the inequalities. -/
theorem mem_freeSymbols_canonicalBlocks [Scalar K] {lmis : List (Lmi K)} {cutting : Cutting}
    {blocks : List (SymMatrix K)} (h : canonicalBlocks lmis cutting = .ok blocks)
    {b : SymMatrix K} (hb : b ∈ blocks) (hs : s ∈ b.freeSymbols) :
    ∃ l ∈ lmis, s ∈ l.freeSymbols := by
  have hside : ∀ l ∈ lmis, ∀ m, l.IsSide m →
      m.AllEntries fun e => ∀ s ∈ e.occurrences, ∃ l ∈ lmis, s ∈ l.freeSymbols := by
    intro l hl m hm
    exact BlockMatrix.allEntries_occurrences.2 fun s hs =>
      ⟨l, hl, Lmi.mem_freeSymbols_of_isSide hm hs⟩
  exact SymMatrix.allEntries_occurrences.1
    (allEntries_canonicalBlocks (Expr.keptByDifference_occurrences _) hside h b hb) s hs

end Semidefinite
