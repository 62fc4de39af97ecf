import Semidefinite.Proofs.Cutting.Pattern
import Semidefinite.Proofs.Expr.Zero
import Semidefinite.Proofs.Grid
import Semidefinite.Proofs.Lowering

/-!
# Splitting a matrix

A square matrix is split into windows along its diagonal, one for each cut. A
block that is split off cannot be split again (`irreducible_of_mem_splitBlocks`),
and splitting blocks that are placed along the diagonal splits each of them
(`splitBlocks_blockDiagonal`).
-/

namespace Semidefinite

/-! ## Windows along the diagonal -/

namespace Grid

variable {α : Type} {fill : α} {g : Grid α} {start : Nat} {ends : List Nat}

theorem cols_of_mem_cutAt {w : Grid α} (h : w ∈ g.cutAt fill start ends) : w.cols = w.rows := by
  rw [cutAt_eq_map] at h
  obtain ⟨span, -, rfl⟩ := List.mem_map.1 h
  rfl

theorem sum_rows_cutAt (hasc : (start :: ends).Pairwise (· < ·)) :
    start + ((g.cutAt fill start ends).map rows).sum = ends.getLast?.getD start := by
  induction ends generalizing start with
  | nil => rfl
  | cons stop rest ih =>
    obtain ⟨hstart, htail⟩ := List.pairwise_cons.1 hasc
    have hstop := hstart stop List.mem_cons_self
    rw [cutAt, List.map_cons, List.sum_cons,
      show (g.diagonalWindow fill start stop).rows = stop - start from rfl, ← Nat.add_assoc,
      Nat.add_sub_cancel' (Nat.le_of_lt hstop), ih htail, List.getLast?_cons, Option.getD_some]

theorem entry?_diagonalWindow {stop i j : Nat} (hrows : stop ≤ g.rows) (hcols : stop ≤ g.cols)
    (h : i < stop - start ∧ j < stop - start) :
    entry? (g.diagonalWindow fill start stop) i j = g.entry? (start + i) (start + j) := by
  unfold diagonalWindow
  rw [entry?_tabulate _ h, g.entry?_eq_some ⟨by omega, by omega⟩, Option.getD_some]

/-- The windows read what shares a span, and nothing else. -/
theorem diagonalCell?_cutAt (fill : α) (hasc : (start :: ends).Pairwise (· < ·))
    (hin : ∀ b ∈ ends, b ≤ g.rows ∧ b ≤ g.cols) (i j : Nat) :
    (SharesSpan start ends (start + i) (start + j) →
      diagonalCell? (g.cutAt fill start ends) i j = g.entry? (start + i) (start + j)) ∧
    (¬ SharesSpan start ends (start + i) (start + j) →
      diagonalCell? (g.cutAt fill start ends) i j = none) := by
  induction ends generalizing start i j with
  | nil =>
    refine ⟨fun h => ?_, fun _ => rfl⟩
    obtain ⟨span, hspan, -⟩ := h
    cases hspan
  | cons stop rest ih =>
    obtain ⟨hstart, htail⟩ := List.pairwise_cons.1 hasc
    have hstop := hstart stop List.mem_cons_self
    obtain ⟨hrows, hcols⟩ := hin stop List.mem_cons_self
    rw [sharesSpan_cons, cutAt]
    have hcell : diagonalCell? (g.diagonalWindow fill start stop :: g.cutAt fill stop rest) i j =
        if i < stop - start ∧ j < stop - start then
          entry? (g.diagonalWindow fill start stop) i j
        else if stop - start ≤ i ∧ stop - start ≤ j then
          diagonalCell? (g.cutAt fill stop rest) (i - (stop - start)) (j - (stop - start))
        else none := rfl
    rw [hcell]
    by_cases hfirst : i < stop - start ∧ j < stop - start
    · rw [if_pos hfirst, entry?_diagonalWindow hrows hcols hfirst]
      exact ⟨fun _ => rfl, fun hne => absurd (.inl (by omega)) hne⟩
    · rw [if_neg hfirst]
      have hnot : ¬ ((start ≤ start + i ∧ start + i < stop) ∧
          start ≤ start + j ∧ start + j < stop) := by omega
      by_cases hlater : stop - start ≤ i ∧ stop - start ≤ j
      · rw [if_pos hlater]
        have hrest := ih htail (fun b hb => hin b (List.mem_cons_of_mem _ hb))
          (i - (stop - start)) (j - (stop - start))
        rw [show stop + (i - (stop - start)) = start + i by omega,
          show stop + (j - (stop - start)) = start + j by omega] at hrest
        exact ⟨fun h => hrest.1 (h.resolve_left hnot), fun h => hrest.2 fun hr => h (.inr hr)⟩
      · rw [if_neg hlater]
        refine ⟨fun h => ?_, fun _ => rfl⟩
        obtain ⟨hi, hj, -⟩ := (sharesSpan_iff htail).1 (h.resolve_left hnot)
        omega

theorem diagonalWindow_self (fill : α) (hsquare : g.rows = g.cols) :
    g.diagonalWindow fill 0 g.rows = g := by
  refine ext_entry? (Nat.sub_zero _) ((Nat.sub_zero _).trans hsquare) fun i j hi hj => ?_
  rw [entry?_diagonalWindow (Nat.le_refl _) (Nat.le_of_eq hsquare) ⟨hi, hj⟩, Nat.zero_add,
    Nat.zero_add]

/-- The windows after some ends start where these end. -/
theorem cutAt_append (fill : α) (g : Grid α) (start : Nat) (before after : List Nat) :
    g.cutAt fill start (before ++ after) =
      g.cutAt fill start before ++ g.cutAt fill (before.getLast?.getD start) after := by
  induction before generalizing start with
  | nil => rfl
  | cons stop rest ih =>
    rw [List.cons_append, cutAt, ih, cutAt, List.cons_append, List.getLast?_cons, Option.getD_some]

section Shift
variable {h : Grid α} {offset n : Nat}
  (hread : ∀ i j, i < n → j < n → g.entry? (offset + i) (offset + j) = h.entry? i j)
include hread

theorem diagonalWindow_shift (fill : α) (start : Nat) {stop : Nat} (hstop : stop ≤ n) :
    g.diagonalWindow fill (offset + start) (offset + stop) = h.diagonalWindow fill start stop := by
  have hsize : offset + stop - (offset + start) = stop - start := Nat.add_sub_add_left _ _ _
  refine ext_entry? hsize hsize fun i j hi hj => ?_
  have hin : i < offset + stop - (offset + start) ∧ j < offset + stop - (offset + start) := ⟨hi, hj⟩
  have hin' : i < stop - start ∧ j < stop - start := by omega
  unfold diagonalWindow
  rw [entry?_tabulate _ hin, entry?_tabulate _ hin', Nat.add_assoc, Nat.add_assoc,
    hread _ _ (by omega) (by omega)]

/-- Where a grid reads like another one further down, so do their windows. -/
theorem cutAt_shift (fill : α) (start : Nat) (hends : ∀ b ∈ ends, b ≤ n) :
    g.cutAt fill (offset + start) (ends.map (offset + ·)) = h.cutAt fill start ends := by
  induction ends generalizing start with
  | nil => rfl
  | cons stop rest ih =>
    rw [List.map_cons, cutAt, cutAt,
      diagonalWindow_shift hread fill start (hends stop List.mem_cons_self),
      ih _ fun b hb => hends b (List.mem_cons_of_mem _ hb)]

end Shift

end Grid

namespace SymMatrix

variable {K : Type} [Scalar K]

theorem vanishes_zero [LawfulZero K] : vanishes (Expr.zero : Expr K) = true := by
  rw [vanishes, Expr.isZero_zero, Bool.true_or]

/-! ## Splitting at the cuts -/

def zeroAt (m : SymMatrix K) (i j : Nat) : Bool :=
  (m.entry? i j).all vanishes

def cuts (m : SymMatrix K) : List Nat :=
  cutsFrom m.zeroAt m.rows m.rows 0 0

def pieces (m : SymMatrix K) : List (SymMatrix K) :=
  Grid.cutAt Expr.zero m 0 m.cuts

section Split
variable {m : SymMatrix K} {blocks : List (SymMatrix K)}

theorem isPartition_cuts (m : SymMatrix K) : IsPartition m.rows m.cuts :=
  Semidefinite.isPartition_cuts m.zeroAt m.rows

theorem boundaries_of_square (hsquare : m.rows = m.cols) : m.boundaries = .ok m.cuts := by
  unfold boundaries blockBoundaries
  exact if_pos hsquare

theorem splitBlocks_of_square (hsquare : m.rows = m.cols) : m.splitBlocks = .ok m.pieces := by
  unfold splitBlocks
  rw [boundaries_of_square hsquare]
  rfl

theorem splitBlocks_of_not_square (hsquare : m.rows ≠ m.cols) :
    m.splitBlocks = .error (.nonSquare m.shape) := by
  have hnone : m.boundaries = .error (.nonSquare m.shape) := by
    unfold boundaries blockBoundaries
    exact if_neg hsquare
  unfold splitBlocks
  rw [hnone]
  rfl

theorem splitBlocks_eq_ok (h : m.splitBlocks = .ok blocks) :
    m.rows = m.cols ∧ blocks = m.pieces := by
  by_cases hsquare : m.rows = m.cols
  · rw [splitBlocks_of_square hsquare] at h
    cases h
    exact ⟨hsquare, rfl⟩
  · rw [splitBlocks_of_not_square hsquare] at h
    cases h

/-! ## Blocks that cannot be split -/

/-- A matrix with some rows and no boundary but the last: it is split into itself. -/
structure Irreducible (m : SymMatrix K) : Prop where
  pos : 0 < m.rows
  ends : m.boundaries = .ok [m.rows]
  split : m.splitBlocks = .ok [m]

theorem irreducible_of_cuts (hpos : 0 < m.rows) (hsquare : m.rows = m.cols)
    (hcuts : m.cuts = [m.rows]) : m.Irreducible where
  pos := hpos
  ends := by rw [boundaries_of_square hsquare, hcuts]
  split := by
    rw [splitBlocks_of_square hsquare, pieces, hcuts, Grid.cutAt, Grid.cutAt,
      Grid.diagonalWindow_self _ hsquare]

theorem irreducible_of_mem_splitBlocks {b : SymMatrix K} (h : m.splitBlocks = .ok blocks)
    (hb : b ∈ blocks) : b.Irreducible := by
  obtain ⟨hsquare, rfl⟩ := splitBlocks_eq_ok h
  rw [pieces, Grid.cutAt_eq_map] at hb
  obtain ⟨⟨start, stop⟩, hspan, rfl⟩ := List.mem_map.1 hb
  obtain ⟨hstart, hstop, hlt, hnext⟩ := mem_spans m.isPartition_cuts.ascending hspan
  have hlast := m.isPartition_cuts.le_of_mem hstop
  rw [cuts, mem_cuts_iff] at hstart hstop
  have hnone : ∀ b, start < b → b < stop → ¬ IsCut m.zeroAt m.rows b := by
    intro b hb hbs hcut
    have := hnext b (mem_cuts_iff.2 hcut) hb
    omega
  have hzeros : ∀ i j, i < stop - start → j < stop - start →
      zeroAt (Grid.diagonalWindow Expr.zero m start stop) i j =
        m.zeroAt (start + i) (start + j) := by
    intro i j hi hj
    unfold zeroAt
    rw [Grid.entry?_diagonalWindow hlast (hsquare ▸ hlast) ⟨hi, hj⟩]
  refine irreducible_of_cuts (Nat.sub_pos_of_lt hlt) rfl ?_
  exact (cuts_congr hzeros).trans (cuts_between hstart hstop hlt hnone)

end Split

/-! ## Blocks along the diagonal -/

section Diagonal
variable {m : SymMatrix K} {rest : List (SymMatrix K)} (hm : m.rows = m.cols)
  (hrest : Grid.rows (blockDiagonal rest) = Grid.cols (blockDiagonal rest))
include hm hrest

theorem entry?_blockDiagonal_cons {i j : Nat} (hi : i < m.rows + Grid.rows (blockDiagonal rest))
    (hj : j < m.rows + Grid.rows (blockDiagonal rest)) :
    Grid.entry? (blockDiagonal (m :: rest)) i j =
      if i < m.rows ∧ j < m.rows then m.entry? i j
      else if m.rows ≤ i ∧ m.rows ≤ j then
        Grid.entry? (blockDiagonal rest) (i - m.rows) (j - m.rows)
      else some Expr.zero := by
  rw [hm, hrest] at hj
  have h := Grid.entry?_blockDiagonal_cons Expr.zero m rest ⟨hi, hj⟩
  rwa [← hm] at h

theorem entry?_first {i j : Nat} (hi : i < m.rows) (hj : j < m.rows) :
    Grid.entry? (blockDiagonal (m :: rest)) i j = m.entry? i j := by
  rw [entry?_blockDiagonal_cons hm hrest (by omega) (by omega), if_pos ⟨hi, hj⟩]

theorem entry?_later {i j : Nat} (hi : i < Grid.rows (blockDiagonal rest))
    (hj : j < Grid.rows (blockDiagonal rest)) :
    Grid.entry? (blockDiagonal (m :: rest)) (m.rows + i) (m.rows + j) =
      Grid.entry? (blockDiagonal rest) i j := by
  rw [entry?_blockDiagonal_cons hm hrest (by omega) (by omega), if_neg (by omega),
    if_pos (by omega), Nat.add_sub_cancel_left, Nat.add_sub_cancel_left]

variable [LawfulZero K]

theorem cuts_blockDiagonal_cons :
    cuts (blockDiagonal (m :: rest)) =
      m.cuts ++ (cuts (blockDiagonal rest)).map (m.rows + ·) := by
  have hoff : ∀ i j, i < m.rows → m.rows ≤ j → j < m.rows + Grid.rows (blockDiagonal rest) →
      zeroAt (blockDiagonal (m :: rest)) i j = true ∧
        zeroAt (blockDiagonal (m :: rest)) j i = true := by
    intro i j hi hj hjn
    unfold zeroAt
    rw [entry?_blockDiagonal_cons hm hrest (by omega) hjn,
      entry?_blockDiagonal_cons hm hrest hjn (by omega), if_neg (by omega), if_neg (by omega),
      if_neg (by omega), if_neg (by omega), Option.all_some]
    exact ⟨vanishes_zero, vanishes_zero⟩
  have hfirst : cutsFrom (zeroAt (blockDiagonal (m :: rest))) m.rows m.rows 0 0 = m.cuts :=
    cuts_congr fun i j hi hj => by
      unfold zeroAt
      rw [entry?_first hm hrest hi hj]
  have hlater : cutsFrom
      (fun i j => zeroAt (blockDiagonal (m :: rest)) (m.rows + i) (m.rows + j))
      (Grid.rows (blockDiagonal rest)) (Grid.rows (blockDiagonal rest)) 0 0 =
      cuts (blockDiagonal rest) :=
    cuts_congr fun i j hi hj => by
      unfold zeroAt
      rw [entry?_later hm hrest hi hj]
  have happend := cuts_append hoff
  rwa [hfirst, hlater] at happend

theorem pieces_blockDiagonal_cons :
    pieces (blockDiagonal (m :: rest)) = m.pieces ++ pieces (blockDiagonal rest) := by
  have hread : ∀ i j, i < m.rows → j < m.rows →
      Grid.entry? (blockDiagonal (m :: rest)) (0 + i) (0 + j) = Grid.entry? m i j := by
    intro i j hi hj
    rw [Nat.zero_add, Nat.zero_add, entry?_first hm hrest hi hj]
  have hfirst := Grid.cutAt_shift hread Expr.zero 0
    fun b hb => m.isPartition_cuts.le_of_mem hb
  have hlater := Grid.cutAt_shift (fun i j hi hj => entry?_later hm hrest hi hj) Expr.zero 0
    fun b hb => (isPartition_cuts (blockDiagonal rest)).le_of_mem hb
  simp only [Nat.zero_add, List.map_id'] at hfirst
  rw [pieces, cuts_blockDiagonal_cons hm hrest, Grid.cutAt_append,
    m.isPartition_cuts.getLast?_getD, hfirst]
  exact congrArg _ hlater

end Diagonal

theorem square_blockDiagonal {parts : List (SymMatrix K)}
    (hsquare : ∀ p ∈ parts, Grid.rows p = Grid.cols p) :
    Grid.rows (blockDiagonal parts) = Grid.cols (blockDiagonal parts) :=
  congrArg List.sum (List.map_congr_left hsquare)

theorem pieces_blockDiagonal [LawfulZero K] {parts : List (SymMatrix K)}
    (hsquare : ∀ p ∈ parts, Grid.rows p = Grid.cols p) :
    pieces (blockDiagonal parts) = parts.flatMap pieces := by
  induction parts with
  | nil => rfl
  | cons m rest ih =>
    obtain ⟨hm, hrest⟩ := List.forall_mem_cons.1 hsquare
    rw [pieces_blockDiagonal_cons hm (square_blockDiagonal hrest), ih hrest, List.flatMap_cons]

theorem splitBlocks_blockDiagonal [LawfulZero K] {parts : List (SymMatrix K)}
    (hsquare : ∀ p ∈ parts, Grid.rows p = Grid.cols p) :
    splitBlocks (blockDiagonal parts) = List.flatten <$> parts.mapM splitBlocks := by
  induction parts with
  | nil => rfl
  | cons m rest ih =>
    obtain ⟨hm, hrest⟩ := List.forall_mem_cons.1 hsquare
    have hsplit := ih hrest
    rw [splitBlocks_of_square (square_blockDiagonal hrest)] at hsplit
    obtain ⟨lists, hlists, hflatten⟩ := Except.map_eq_ok.1 hsplit.symm
    rw [splitBlocks_of_square (square_blockDiagonal hsquare),
      pieces_blockDiagonal_cons hm (square_blockDiagonal hrest), ← hflatten, List.mapM_cons,
      splitBlocks_of_square hm, hlists]
    rfl

end SymMatrix

end Semidefinite
