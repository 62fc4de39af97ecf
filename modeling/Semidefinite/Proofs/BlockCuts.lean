import Mathlib.Tactic.Common
import Semidefinite.BlockCuts

/-!
# Block boundaries are the cuts

A matrix is cut at `b` if no row above `b` is coupled to a row from `b` on. The
scan keeps the lowest row that the rows so far are coupled to (`Reach`), and a
row at which the reach ends is followed by a cut (`Reach.isCut_iff`). The cuts
are the finest partition that keeps every non-zero entry inside one block.
-/

namespace Semidefinite

/-- One of the two entries at which `i` and `j` meet is not zero. -/
def Coupled (isZero : Nat → Nat → Bool) (i j : Nat) : Prop :=
  isZero i j = false ∨ isZero j i = false

/-- A block of `n` rows may end before row `b`. -/
structure IsCut (isZero : Nat → Nat → Bool) (n b : Nat) : Prop where
  pos : 1 ≤ b
  le : b ≤ n
  zeros : ∀ i j, i < b → b ≤ j → j < n → isZero i j = true ∧ isZero j i = true

theorem not_coupled_iff {isZero : Nat → Nat → Bool} {i j : Nat} :
    ¬ Coupled isZero i j ↔ isZero i j = true ∧ isZero j i = true := by
  simp [Coupled]

/-! ## The scan -/

section Scan
variable {isZero : Nat → Nat → Bool} {n c reach : Nat}

theorem lowestCoupled?_eq_some {r : Nat} (h : lowestCoupled? isZero n c reach = some r) :
    reach < r ∧ r < n ∧ Coupled isZero c r ∧
      ∀ j, r < j → j < n → ¬ Coupled isZero c j := by
  have hsorted : (List.range' (reach + 1) (n - (reach + 1))).reverse.Pairwise (· > ·) :=
    List.pairwise_reverse.2 (List.pairwise_lt_range')
  obtain ⟨hr, above, below, hsplit, habove⟩ := List.find?_eq_some_iff_append.1 h
  have hmem : ∀ j, j ∈ above ++ r :: below ↔ reach < j ∧ j < n := by
    intro j
    rw [← hsplit, List.mem_reverse, List.mem_range'_1]
    omega
  obtain ⟨hreach, hn⟩ := (hmem r).1 (by simp)
  refine ⟨hreach, hn, by simpa [Coupled, or_comm] using hr, fun j hj hjn => ?_⟩
  have hin : j ∈ above := by
    rw [hsplit] at hsorted
    have hbelow := (List.pairwise_cons.1 (List.pairwise_append.1 hsorted).2.1).1
    rcases List.mem_append.1 ((hmem j).2 ⟨by omega, hjn⟩) with hin | hin
    · exact hin
    · rcases List.mem_cons.1 hin with rfl | hin
      · omega
      · exact absurd (hbelow j hin) (by omega)
  have hzeros := habove j hin
  rw [not_coupled_iff]
  simpa [and_comm] using hzeros

theorem lowestCoupled?_eq_none (h : lowestCoupled? isZero n c reach = none) :
    ∀ j, reach < j → j < n → ¬ Coupled isZero c j := by
  intro j hj hjn
  have hmem : j ∈ (List.range' (reach + 1) (n - (reach + 1))).reverse := by
    rw [List.mem_reverse, List.mem_range'_1]
    omega
  rw [not_coupled_iff]
  simpa [and_comm] using List.find?_eq_none.1 h j hmem

/-- Rows above `c` are coupled to no row below `reach`, and to `reach` unless it is above. -/
structure Reach (isZero : Nat → Nat → Bool) (n c reach : Nat) : Prop where
  bound : ∀ i j, i < c → j < n → Coupled isZero i j → j ≤ reach
  attained : c ≤ reach → reach = 0 ∨ ∃ i < c, reach < n ∧ Coupled isZero i reach

theorem Reach.start (isZero : Nat → Nat → Bool) (n : Nat) : Reach isZero n 0 0 where
  bound i j hi := by omega
  attained _ := .inl rfl

theorem Reach.next (h : Reach isZero n c reach) :
    Reach isZero n (c + 1)
      ((lowestCoupled? isZero n c (max c reach)).getD (max c reach)) := by
  have hbefore : ∀ i j, i < c → j < n → Coupled isZero i j → j ≤ max c reach :=
    fun i j hi hj hij => Nat.le_trans (h.bound i j hi hj hij) (Nat.le_max_right _ _)
  cases hlow : lowestCoupled? isZero n c (max c reach) with
  | none =>
    have hnone := lowestCoupled?_eq_none hlow
    simp only [Option.getD_none]
    refine ⟨fun i j hi hj hij => ?_, fun hc => ?_⟩
    · rcases Nat.lt_succ_iff_lt_or_eq.1 hi with hi | rfl
      · exact hbefore i j hi hj hij
      · by_contra hlt
        exact hnone j (by omega) hj hij
    · rw [show max c reach = reach by omega] at hc ⊢
      rcases h.attained (by omega) with h0 | ⟨i, hi, hn, hij⟩
      · exact .inl h0
      · exact .inr ⟨i, by omega, hn, hij⟩
  | some r =>
    obtain ⟨hr, hn, hcoupled, hlowest⟩ := lowestCoupled?_eq_some hlow
    simp only [Option.getD_some]
    refine ⟨fun i j hi hj hij => ?_, fun _ => ?_⟩
    · rcases Nat.lt_succ_iff_lt_or_eq.1 hi with hi | rfl
      · exact Nat.le_trans (hbefore i j hi hj hij) (Nat.le_of_lt hr)
      · by_contra hlt
        exact hlowest j (by omega) hj hij
    · exact .inr ⟨c, by omega, hn, hcoupled⟩

theorem le_low : c ≤ (lowestCoupled? isZero n c (max c reach)).getD (max c reach) := by
  cases hlow : lowestCoupled? isZero n c (max c reach) with
  | none => exact Nat.le_max_left _ _
  | some r =>
    have hr := (lowestCoupled?_eq_some hlow).1
    simp only [Option.getD_some]
    omega

/-- The reach ends at row `c` exactly if there is a cut below it. -/
theorem Reach.isCut_iff (h : Reach isZero n (c + 1) reach) (hc : c < n) (hreach : c ≤ reach) :
    reach = c ↔ IsCut isZero n (c + 1) := by
  refine ⟨?_, fun hcut => ?_⟩
  · rintro rfl
    refine ⟨by omega, hc, fun i j hi hj hjn => not_coupled_iff.1 fun hij => ?_⟩
    have := h.bound i j hi hjn hij
    omega
  · by_contra hne
    rcases h.attained (by omega) with h0 | ⟨i, hi, hn, hij⟩
    · omega
    · exact not_coupled_iff.2 (hcut.zeros i reach hi (by omega) hn) hij

theorem mem_cutsFrom_iff {remaining b : Nat} (h : Reach isZero n c reach)
    (hn : c + remaining = n) :
    b ∈ cutsFrom isZero n remaining c reach ↔ c < b ∧ IsCut isZero n b := by
  induction remaining generalizing c reach with
  | zero =>
    refine ⟨fun hb => ?_, ?_⟩
    · cases hb
    · rintro ⟨hcb, hcut⟩
      have := hcut.le
      omega
  | succ remaining ih =>
    have hnext := h.next
    have hcut := hnext.isCut_iff (by omega) le_low
    have hrest := ih hnext (by omega)
    -- a later cut is `c + 1` or a cut of the rest
    have hsucc : c < b ↔ b = c + 1 ∨ c + 1 < b := by omega
    simp only [cutsFrom]
    split
    · rename_i hlow
      have hhere := hcut.1 hlow
      rw [List.mem_cons, hrest, hsucc]
      refine ⟨?_, ?_⟩
      · rintro (rfl | ⟨hlt, hb⟩)
        · exact ⟨.inl rfl, hhere⟩
        · exact ⟨.inr hlt, hb⟩
      · rintro ⟨rfl | hlt, hb⟩
        · exact .inl rfl
        · exact .inr ⟨hlt, hb⟩
    · rename_i hlow
      rw [hrest, hsucc]
      refine ⟨?_, ?_⟩
      · rintro ⟨hlt, hb⟩
        exact ⟨.inr hlt, hb⟩
      · rintro ⟨rfl | hlt, hb⟩
        · exact absurd (hcut.2 hb) hlow
        · exact ⟨hlt, hb⟩

theorem lt_of_mem_cutsFrom {remaining b : Nat} (h : b ∈ cutsFrom isZero n remaining c reach) :
    c < b := by
  induction remaining generalizing c reach with
  | zero => cases h
  | succ remaining ih =>
    simp only [cutsFrom] at h
    split at h
    · rcases List.mem_cons.1 h with rfl | h
      · omega
      · exact Nat.lt_of_succ_lt (ih h)
    · exact Nat.lt_of_succ_lt (ih h)

theorem cutsFrom_ascending (isZero : Nat → Nat → Bool) (n remaining c reach : Nat) :
    (cutsFrom isZero n remaining c reach).Pairwise (· < ·) := by
  induction remaining generalizing c reach with
  | zero => exact .nil
  | succ remaining ih =>
    simp only [cutsFrom]
    split
    · exact .cons (fun b hb => lt_of_mem_cutsFrom hb) (ih _ _)
    · exact ih _ _

end Scan

/-! ## Spans -/

/-- The rows from one end to the next. -/
def spans : (start : Nat) → List Nat → List (Nat × Nat)
  | _, [] => []
  | start, stop :: rest => (start, stop) :: spans stop rest

theorem Grid.cutAt_eq_map {α : Type} (fill : α) (g : Grid α) (start : Nat) (ends : List Nat) :
    g.cutAt fill start ends =
      (spans start ends).map fun span => g.diagonalWindow fill span.1 span.2 := by
  induction ends generalizing start with
  | nil => rfl
  | cons stop rest ih => rw [Grid.cutAt, spans, List.map_cons, ih]

/-- Rows `i` and `j` lie inside one of the spans. -/
def SharesSpan (start : Nat) (ends : List Nat) (i j : Nat) : Prop :=
  ∃ span ∈ spans start ends, (span.1 ≤ i ∧ i < span.2) ∧ span.1 ≤ j ∧ j < span.2

theorem sharesSpan_cons {start stop : Nat} {rest : List Nat} {i j : Nat} :
    SharesSpan start (stop :: rest) i j ↔
      ((start ≤ i ∧ i < stop) ∧ start ≤ j ∧ j < stop) ∨ SharesSpan stop rest i j := by
  simp [SharesSpan, spans]

/-- Rows share a span if no end tells them apart. -/
theorem sharesSpan_iff {start : Nat} {ends : List Nat} (h : (start :: ends).Pairwise (· < ·))
    {i j : Nat} :
    SharesSpan start ends i j ↔
      start ≤ i ∧ start ≤ j ∧ (∃ b ∈ ends, i < b) ∧ ∀ b ∈ ends, i < b ↔ j < b := by
  induction ends generalizing start with
  | nil => simp [SharesSpan, spans]
  | cons stop rest ih =>
    obtain ⟨hstart, htail⟩ := List.pairwise_cons.1 h
    have hstop := hstart stop List.mem_cons_self
    have hlater := (List.pairwise_cons.1 htail).1
    rw [sharesSpan_cons, ih htail]
    refine ⟨?_, ?_⟩
    · rintro (⟨⟨hi, his⟩, hj, hjs⟩ | ⟨hi, hj, ⟨b, hb, hib⟩, hsame⟩)
      · refine ⟨hi, hj, ⟨stop, List.mem_cons_self, his⟩, fun b hb => ?_⟩
        rcases List.mem_cons.1 hb with rfl | hb
        · exact iff_of_true his hjs
        · have := hlater b hb
          exact iff_of_true (by omega) (by omega)
      · refine ⟨by omega, by omega, ⟨b, List.mem_cons_of_mem _ hb, hib⟩, fun b hb => ?_⟩
        rcases List.mem_cons.1 hb with rfl | hb
        · exact iff_of_false (by omega) (by omega)
        · exact hsame b hb
    · rintro ⟨hi, hj, ⟨b, hb, hib⟩, hsame⟩
      have hfirst := hsame stop List.mem_cons_self
      by_cases his : i < stop
      · exact .inl ⟨⟨hi, his⟩, hj, hfirst.1 his⟩
      · refine .inr ⟨by omega, by omega, ?_, fun b hb => hsame b (List.mem_cons_of_mem _ hb)⟩
        rcases List.mem_cons.1 hb with rfl | hb
        · exact absurd hib his
        · exact ⟨b, hb, hib⟩

/-- The ends of consecutive spans that make up the rows below `n`. -/
structure IsPartition (n : Nat) (ends : List Nat) : Prop where
  ascending : (0 :: ends).Pairwise (· < ·)
  rows : ∀ i, i < n ↔ ∃ b ∈ ends, i < b

/-- Every non-zero entry of an `n` by `n` matrix lies inside one span. -/
def Covers (isZero : Nat → Nat → Bool) (n : Nat) (ends : List Nat) : Prop :=
  ∀ i j, i < n → j < n → isZero i j = false → SharesSpan 0 ends i j

section Partition
variable {isZero : Nat → Nat → Bool} {n : Nat} {ends : List Nat}

theorem IsPartition.le_of_mem (h : IsPartition n ends) {b : Nat} (hb : b ∈ ends) : b ≤ n := by
  by_contra hlt
  have := (h.rows n).2 ⟨b, hb, by omega⟩
  omega

theorem IsPartition.getLast?_eq (h : IsPartition n ends) (hn : 0 < n) :
    ends.getLast? = some n := by
  obtain ⟨b, hb, hlt⟩ := (h.rows (n - 1)).1 (by omega)
  have hle := h.le_of_mem hb
  obtain rfl : b = n := by omega
  obtain ⟨before, after, rfl⟩ := List.append_of_mem hb
  have hafter := (List.pairwise_append.1 (List.pairwise_cons.1 h.ascending).2).2.1
  cases after with
  | nil => simp
  | cons b' after =>
    have hgt := (List.pairwise_cons.1 hafter).1 b' List.mem_cons_self
    have hle := h.le_of_mem (b := b') (by simp)
    omega

theorem IsPartition.eq_nil (h : IsPartition 0 ends) : ends = [] := by
  refine List.eq_nil_iff_forall_not_mem.2 fun b hb => ?_
  have hpos := (List.pairwise_cons.1 h.ascending).1 b hb
  have hle := h.le_of_mem hb
  omega

/-- A partition covers the non-zero entries exactly if all its ends are cuts. -/
theorem IsPartition.covers_iff (h : IsPartition n ends) :
    Covers isZero n ends ↔ ∀ b ∈ ends, IsCut isZero n b := by
  refine ⟨fun hcovers b hb => ?_, fun hcuts i j hi hj hij => ?_⟩
  · refine ⟨(List.pairwise_cons.1 h.ascending).1 b hb, h.le_of_mem hb, fun i j hi hj hjn => ?_⟩
    rw [← not_coupled_iff]
    rintro (hij | hji)
    · have hsame := ((sharesSpan_iff h.ascending).1 (hcovers i j (by omega) hjn hij)).2.2.2 b hb
      omega
    · have hsame := ((sharesSpan_iff h.ascending).1 (hcovers j i hjn (by omega) hji)).2.2.2 b hb
      omega
  · refine (sharesSpan_iff h.ascending).2 ⟨by omega, by omega, (h.rows i).1 hi, fun b hb => ?_⟩
    -- an end between the two rows would make the entry zero
    by_contra hne
    rcases Nat.lt_or_ge i b with hib | hib
    · have := ((hcuts b hb).zeros i j hib (by omega) hj).1
      simp [hij] at this
    · have := ((hcuts b hb).zeros j i (by omega) hib hi).2
      simp [hij] at this

end Partition

/-! ## Block boundaries -/

theorem blockBoundaries_square (isZero : Nat → Nat → Bool) (n : Nat) :
    blockBoundaries (n, n) isZero = .ok (cutsFrom isZero n n 0 0) := by
  simp [blockBoundaries]

theorem mem_cuts_iff {isZero : Nat → Nat → Bool} {n b : Nat} :
    b ∈ cutsFrom isZero n n 0 0 ↔ IsCut isZero n b := by
  rw [mem_cutsFrom_iff (Reach.start isZero n) (Nat.zero_add n)]
  exact and_iff_right_of_imp fun h => h.pos

theorem isPartition_cuts (isZero : Nat → Nat → Bool) (n : Nat) :
    IsPartition n (cutsFrom isZero n n 0 0) where
  ascending := .cons (fun _ hb => lt_of_mem_cutsFrom hb) (cutsFrom_ascending isZero n n 0 0)
  rows i := by
    refine ⟨fun hi => ?_, ?_⟩
    · refine ⟨n, mem_cuts_iff.2 ⟨by omega, Nat.le_refl n, fun i j hi hj hjn => ?_⟩, hi⟩
      omega
    · rintro ⟨b, hb, hib⟩
      exact Nat.lt_of_lt_of_le hib (mem_cuts_iff.1 hb).le

theorem covers_cuts (isZero : Nat → Nat → Bool) (n : Nat) :
    Covers isZero n (cutsFrom isZero n n 0 0) :=
  (isPartition_cuts isZero n).covers_iff.2 fun _ hb => mem_cuts_iff.1 hb

/-- The boundaries of a square matrix are its cuts in ascending order. They make up the rows,
keep every non-zero entry inside one block, and have among them the ends of any other
partition that does. A matrix that is not square has no boundaries. -/
theorem blockBoundaries_exact (isZero : Nat → Nat → Bool) :
    (∀ n, ∃ ends, blockBoundaries (n, n) isZero = .ok ends ∧
      ends.Pairwise (· < ·) ∧
      (∀ b, b ∈ ends ↔
        1 ≤ b ∧ b ≤ n ∧ ∀ i j, i < b → b ≤ j → j < n → isZero i j = true ∧ isZero j i = true) ∧
      (n = 0 → ends = []) ∧
      (0 < n → ends.getLast? = some n) ∧
      IsPartition n ends ∧
      Covers isZero n ends ∧
      ∀ finer, IsPartition n finer → Covers isZero n finer → finer ⊆ ends) ∧
    ∀ rows cols, rows ≠ cols →
      blockBoundaries (rows, cols) isZero = .error (.nonSquare (rows, cols)) := by
  refine ⟨fun n => ?_, fun rows cols hne => ?_⟩
  · have hpartition := isPartition_cuts isZero n
    refine ⟨cutsFrom isZero n n 0 0, blockBoundaries_square isZero n,
      cutsFrom_ascending isZero n n 0 0, fun b => ?_, ?_, hpartition.getLast?_eq, hpartition,
      covers_cuts isZero n, fun finer hfiner hcovers b hb => ?_⟩
    · rw [mem_cuts_iff]
      exact ⟨fun h => ⟨h.pos, h.le, h.zeros⟩, fun ⟨hpos, hle, hzeros⟩ => ⟨hpos, hle, hzeros⟩⟩
    · rintro rfl
      exact hpartition.eq_nil
    · exact mem_cuts_iff.2 (hfiner.covers_iff.1 hcovers b hb)
  · simp [blockBoundaries, hne]

end Semidefinite
