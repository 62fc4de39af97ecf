import Semidefinite.Proofs.Expr.Exponents
import Semidefinite.Proofs.Lmi.Entries

/-!
# Inequalities within the limits of words

Shapes and exponents are natural numbers here and words in memory, and the two are
the same for the inequalities of `Lmi.WithinLimits`: their canonical matrices have
shapes in words (`Lmi.inWords_canonicalMatrix`), and no exponent that is formed in
lowering their blocks leaves 32 bits (`exponentsFit_canonicalBlocks`).
-/

namespace Semidefinite

variable {K : Type}

/-- The shapes of the sides are words of 64 bits, and the degrees of their entries words of 32. -/
structure Lmi.WithinLimits (l : Lmi K) : Prop where
  inWords : l.InWords
  degree : ∀ s, l.IsSide s → s.AllEntries fun e => e.degree < UInt32.size

theorem Lmi.withinLimits_of_operands {l : Lmi K}
    (hshape : ∀ o ∈ [l.lhs, l.rhs], ∀ s ∈ o.matrix?,
      s.shape.1 < UInt64.size ∧ s.shape.2 < UInt64.size)
    (hdegree : ∀ o ∈ [l.lhs, l.rhs], ∀ s ∈ o.matrix?, ∀ p ∈ s.parts, ∀ e ∈ p.entries.toList,
      e.degree < UInt32.size) : l.WithinLimits := by
  refine ⟨inWords_of_operands hshape, fun s hs p hp i j e he => ?_⟩
  obtain ⟨o, ho, hs⟩ := exists_operand_of_isSide hs
  exact hdegree o ho s hs p hp e (Grid.mem_entries.2 ⟨i, j, he⟩)

variable [Scalar K]

theorem Expr.keptByDifference_degree {n : Nat} (hn : 0 < n) :
    KeptByDifference fun e : Expr K => e.degree < n where
  zero := by rwa [Expr.zero, Expr.degree]
  negate {e} he := Nat.lt_of_le_of_lt e.degree_negate_le he
  sub {a b} ha hb := by
    have hle := degree_sub_le (Nat.le_max_left a.degree b.degree) (Nat.le_max_right _ _)
    exact Nat.lt_of_le_of_lt hle (Nat.max_lt.2 ⟨ha, hb⟩)

/-- No exponent that is formed for an entry of a block leaves 32 bits. -/
theorem exponentsFit_canonicalBlocks {lmis : List (Lmi K)} (hlimits : ∀ l ∈ lmis, l.WithinLimits)
    {cutting : Cutting} {blocks : List (SymMatrix K)}
    (hblocks : canonicalBlocks lmis cutting = .ok blocks) :
    ∀ b ∈ blocks, SymMatrix.AllEntries Expr.ExponentsFit b := by
  have hpos : 0 < UInt32.size := by decide
  have hdegree := allEntries_canonicalBlocks (Expr.keptByDifference_degree hpos)
    (fun l hl => (hlimits l hl).degree) hblocks
  exact fun b hb i j e he => Expr.exponentsFit_of_degree (hdegree b hb i j e he)

end Semidefinite
