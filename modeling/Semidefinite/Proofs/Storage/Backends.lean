import Semidefinite.Proofs.Storage.RowLists
import Semidefinite.Proofs.Storage.Triplets
import Semidefinite.Storage.Choice

/-!
# All backends are one map

Each storage is faithful, so after the same writes all of them read the same
(`run_reads_last`).
-/

namespace Semidefinite

open Storage

variable {K : Type} [Scalar K]

instance [LawfulStart K] (b : Backend) : FaithfulStorage b.Store K :=
  match b with
  | .dense => inferInstanceAs (FaithfulStorage Grid K)
  | .rowLists => inferInstanceAs (FaithfulStorage RowLists K)
  | .triplets => inferInstanceAs (FaithfulStorage Triplets K)

/-! ## Cells that are not zero -/

/-- The cells whose value last written is not zero, row after row. -/
def Write.nonzeroCells (rows cols : Nat) (writes : List (Write K)) : List Cell :=
  ((List.range rows).flatMap fun i => (List.range cols).map fun j => (⟨i, j⟩ : Cell)).filter
    fun c => (Write.last? writes c).getD 0 != 0

theorem Write.rowMajor_nonzeroCells (rows cols : Nat) (writes : List (Write K)) :
    (Write.nonzeroCells rows cols writes).Pairwise Cell.Precedes := by
  refine List.Pairwise.filter _ ?_
  rw [List.pairwise_flatMap]
  refine ⟨fun i _ => ?_, ?_⟩
  · rw [List.pairwise_map]
    exact List.pairwise_lt_range.imp fun {j j'} hj => .inr ⟨rfl, hj⟩
  · refine List.pairwise_lt_range.imp fun {i i'} hi p hp q hq => ?_
    obtain ⟨j, -, rfl⟩ := List.mem_map.1 hp
    obtain ⟨j', -, rfl⟩ := List.mem_map.1 hq
    exact .inl hi

theorem Write.mem_nonzeroCells [LawfulZero K] {rows cols : Nat} {writes : List (Write K)}
    (h : Write.Admissible rows cols writes) {c : Cell} :
    c ∈ Write.nonzeroCells rows cols writes ↔
      ∃ v, Write.last? writes c = some v ∧ (v == 0) = false := by
  unfold Write.nonzeroCells
  rw [List.mem_filter]
  constructor
  · rintro ⟨-, hc⟩
    cases hlast : Write.last? writes c with
    | none =>
      rw [hlast, Option.getD_none, bne, LawfulZero.zero_beq] at hc
      cases hc
    | some v =>
      rw [hlast, Option.getD_some, bne] at hc
      exact ⟨v, rfl, by simpa using hc⟩
  · rintro ⟨v, hlast, hv⟩
    have hin : c.row < rows ∧ c.col < cols := by
      by_contra hout
      have hnone : Write.last? writes c = none :=
        Write.last?_eq_none fun w hw heq => hout (heq ▸ h.inside w hw)
      rw [hlast] at hnone
      cases hnone
    refine ⟨?_, by rw [hlast, Option.getD_some, bne, hv]; rfl⟩
    rw [List.mem_flatMap]
    exact ⟨c.row, List.mem_range.2 hin.1, List.mem_map.2 ⟨c.col, List.mem_range.2 hin.2, rfl⟩⟩

/-- A matrix lists the cells that are not zero and no others. -/
theorem Storage.Reads.cells_eq [LawfulZero K] {S : Type → Type} [Storage S] {m : S K}
    {rows cols : Nat} {writes : List (Write K)} (h : Reads m rows cols writes)
    (hwrites : Write.Admissible rows cols writes) :
    (Storage.nonzeros m).map Prod.fst = Write.nonzeroCells rows cols writes := by
  refine eq_of_ordered Cell.Precedes.not_symm h.rowMajor
    (Write.rowMajor_nonzeroCells rows cols writes) fun c => ?_
  rw [Write.mem_nonzeroCells hwrites, List.mem_map]
  constructor
  · rintro ⟨⟨c, v⟩, hv, rfl⟩
    exact ⟨v, (h.nonzeros c v).1 hv⟩
  · rintro ⟨v, hv⟩
    exact ⟨(c, v), (h.nonzeros c v).2 hv, rfl⟩

/-! ## The map of every backend -/

/-- At every point of a sequence of writes, each storage has the shape and reads the value last
written into a cell. Rows of lists stay in order and keep no zero, no cell has two triplets, and
both kinds keep as many values as there are cells that are not zero. -/
theorem Write.run_reads_last {rows cols : Nat} {writes : List (Write Float)}
    (h : Admissible rows cols writes) {done : List (Write Float)} (hdone : done <+: writes) :
    (∀ b : Backend, ∃ m : b.Store Float,
      run b.Store rows cols done = .ok m ∧ Reads m rows cols done) ∧
    (∃ m : RowLists Float, run RowLists rows cols done = .ok m ∧
      (∀ row ∈ m.rows, row.Pairwise (fun p q => p.1 < q.1) ∧ ∀ p ∈ row, (p.2 == 0) = false) ∧
      m.count = (nonzeroCells rows cols done).length) ∧
    ∃ m : Triplets Float, run Triplets rows cols done = .ok m ∧
      (m.written.toList.map Prod.fst).Nodup ∧ m.count = (nonzeroCells rows cols done).length := by
  have hadmissible := h.of_prefix hdone
  refine ⟨fun b => ?_, ?_, ?_⟩
  · obtain ⟨m, hrun, hholds⟩ := exists_run (S := b.Store) hadmissible
    exact ⟨m, hrun, hholds.reads⟩
  · obtain ⟨m, hrun, hholds⟩ := exists_run (S := RowLists) hadmissible
    have hvalid : RowLists.Valid m := hholds.valid
    refine ⟨m, hrun, fun row hrow => ⟨(hvalid row hrow).ascending, (hvalid row hrow).nonzero⟩, ?_⟩
    rw [m.count_eq, ← hholds.reads.cells_eq hadmissible, List.length_map]
  · obtain ⟨m, hrun, hholds⟩ := exists_run (S := Triplets) hadmissible
    have hvalid : Triplets.Valid m := hholds.valid
    refine ⟨m, hrun, hvalid.nodup, ?_⟩
    rw [hvalid.count_eq, ← hholds.reads.cells_eq hadmissible, List.length_map]

/-- Values of all sorts, in a matrix of two rows and three columns: an infinity that is removed and
put back as a number, a NaN that stands, and zeros of both signs. -/
theorem Write.run_reads_last_of_all_sorts :
    let writes : List (Write Float) :=
      [⟨⟨0, 1⟩, 1 / 0, true⟩, ⟨⟨1, 2⟩, -0, true⟩, ⟨⟨0, 1⟩, 0, false⟩, ⟨⟨0, 0⟩, 0 / 0, false⟩,
        ⟨⟨0, 1⟩, 2.5, false⟩, ⟨⟨1, 2⟩, -1, false⟩, ⟨⟨1, 2⟩, -0, false⟩, ⟨⟨1, 0⟩, 3, true⟩]
    let done := writes.take 7
    Admissible 2 3 writes ∧ done <+: writes ∧
    (∀ b : Backend, ∃ m : b.Store Float, run b.Store 2 3 done = .ok m ∧ Reads m 2 3 done) ∧
    (∃ m : RowLists Float, run RowLists 2 3 done = .ok m ∧
      (∀ row ∈ m.rows, row.Pairwise (fun p q => p.1 < q.1) ∧ ∀ p ∈ row, (p.2 == 0) = false) ∧
      m.count = (nonzeroCells 2 3 done).length) ∧
    ∃ m : Triplets Float, run Triplets 2 3 done = .ok m ∧
      (m.written.toList.map Prod.fst).Nodup ∧ m.count = (nonzeroCells 2 3 done).length := by
  intro writes done
  have hadmissible : Admissible 2 3 writes := ⟨by decide, by decide⟩
  have hdone : done <+: writes := List.take_prefix 7 writes
  exact ⟨hadmissible, hdone, run_reads_last hadmissible hdone⟩

end Semidefinite
