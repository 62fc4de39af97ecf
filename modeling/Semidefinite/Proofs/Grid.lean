import Mathlib.Algebra.GroupWithZero.Nat
import Mathlib.Data.List.Forall2
import Mathlib.Data.List.Nodup
import Mathlib.Tactic.Common
import Semidefinite.Grid

/-!
# What grids read

Every operation on grids is described by what `entry?` reads from its result, and
a grid is determined by its shape and by that (`ext_entry?`). Placing blocks on
the diagonal is associative (`blockDiagonal_flatten`).
-/

namespace Semidefinite.Grid

variable {α β : Type}

/-! ## Entries -/

@[simp] theorem rows_tabulate (rows cols : Nat) (f : Fin rows → Fin cols → α) :
    (tabulate rows cols f).rows = rows := rfl

@[simp] theorem cols_tabulate (rows cols : Nat) (f : Fin rows → Fin cols → α) :
    (tabulate rows cols f).cols = cols := rfl

theorem entry?_eq_some (g : Grid α) {i j : Nat} (h : i < g.rows ∧ j < g.cols) :
    g.entry? i j = some (g.entry ⟨i, h.1⟩ ⟨j, h.2⟩) := by
  unfold entry?
  rw [dif_pos h]

theorem entry?_eq_none (g : Grid α) {i j : Nat} (h : ¬ (i < g.rows ∧ j < g.cols)) :
    g.entry? i j = none := by
  unfold entry?
  rw [dif_neg h]

theorem lt_of_entry?_eq_some {g : Grid α} {i j : Nat} {a : α} (h : g.entry? i j = some a) :
    i < g.rows ∧ j < g.cols := by
  by_contra hne
  rw [g.entry?_eq_none hne] at h
  cases h

theorem entry?_entry (g : Grid α) (i : Fin g.rows) (j : Fin g.cols) :
    g.entry? i j = some (g.entry i j) :=
  g.entry?_eq_some ⟨i.isLt, j.isLt⟩

theorem entry?_tabulate {rows cols : Nat} (f : Fin rows → Fin cols → α) {i j : Nat}
    (h : i < rows ∧ j < cols) :
    entry? (tabulate rows cols f) i j = some (f ⟨i, h.1⟩ ⟨j, h.2⟩) := by
  rw [entry?_eq_some _ h]
  exact congrArg some (entry_tabulate rows cols f ⟨i, h.1⟩ ⟨j, h.2⟩)

theorem entry?_tabulate_eq_none {rows cols : Nat} (f : Fin rows → Fin cols → α) {i j : Nat}
    (h : ¬ (i < rows ∧ j < cols)) : entry? (tabulate rows cols f) i j = none :=
  (tabulate rows cols f).entry?_eq_none h

theorem entry?_tabulate_eq_some {rows cols : Nat} {f : Fin rows → Fin cols → α} {i j : Nat} {a : α}
    (h : entry? (tabulate rows cols f) i j = some a) :
    ∃ hin : i < rows ∧ j < cols, f ⟨i, hin.1⟩ ⟨j, hin.2⟩ = a := by
  have hin : i < rows ∧ j < cols := lt_of_entry?_eq_some h
  rw [entry?_tabulate f hin] at h
  exact ⟨hin, Option.some.inj h⟩

theorem ext_entry? {g h : Grid α} (hr : g.rows = h.rows) (hc : g.cols = h.cols)
    (he : ∀ i j, i < g.rows → j < g.cols → g.entry? i j = h.entry? i j) : g = h := by
  refine ext_entry hr hc fun i j => ?_
  have hij := he i j i.isLt j.isLt
  rw [entry?_entry, entry?_eq_some h ⟨hr ▸ i.isLt, hc ▸ j.isLt⟩] at hij
  exact Option.some.inj hij

@[simp] theorem rows_map (f : α → β) (g : Grid α) : (g.map f).rows = g.rows := rfl

@[simp] theorem cols_map (f : α → β) (g : Grid α) : (g.map f).cols = g.cols := rfl

@[simp] theorem entry?_map (f : α → β) (g : Grid α) (i j : Nat) :
    entry? (g.map f) i j = (g.entry? i j).map f := by
  by_cases h : i < g.rows ∧ j < g.cols
  · unfold map
    rw [entry?_tabulate _ h, g.entry?_eq_some h, Option.map_some]
  · rw [(g.map f).entry?_eq_none h, g.entry?_eq_none h, Option.map_none]

@[simp] theorem entry?_transpose (g : Grid α) (i j : Nat) :
    entry? g.transpose i j = g.entry? j i := by
  unfold transpose
  by_cases h : j < g.rows ∧ i < g.cols
  · rw [entry?_tabulate _ h.symm, g.entry?_eq_some h]
  · rw [entry?_tabulate_eq_none _ fun hij => h hij.symm, g.entry?_eq_none h]

theorem map_map {γ : Type} (f : α → β) (g : β → γ) (m : Grid α) :
    (m.map f).map g = m.map (g ∘ f) := by
  refine ext_entry? rfl rfl fun i j _ _ => ?_
  rw [entry?_map, entry?_map, entry?_map, Option.map_map]

theorem transpose_map (f : α → β) (g : Grid α) : (g.map f).transpose = g.transpose.map f := by
  refine ext_entry? rfl rfl fun i j _ _ => ?_
  rw [entry?_transpose, entry?_map, entry?_map, entry?_transpose]

/-- A grid that does not change when mirrored at the diagonal is square. -/
theorem transpose_eq_iff {g : Grid α} :
    g.transpose = g ↔ g.rows = g.cols ∧ ∀ i j, g.entry? i j = g.entry? j i := by
  constructor
  · intro h
    refine ⟨(congrArg rows h).symm, fun i j => ?_⟩
    calc g.entry? i j = g.transpose.entry? i j := by rw [h]
      _ = g.entry? j i := g.entry?_transpose i j
  · rintro ⟨hsquare, hmirrored⟩
    refine ext_entry? hsquare.symm hsquare fun i j _ _ => ?_
    rw [entry?_transpose, hmirrored]

theorem mem_entries {g : Grid α} {a : α} :
    a ∈ g.entries.toList ↔ ∃ i j, g.entry? i j = some a := by
  rw [Array.mem_toList_iff, Array.mem_iff_getElem]
  refine ⟨?_, ?_⟩
  · rintro ⟨k, hk, rfl⟩
    have hcells : k < g.rows * g.cols := g.size_entries ▸ hk
    have hindex : k / g.cols * g.cols + k % g.cols = k := Nat.div_add_mod' k g.cols
    refine ⟨k / g.cols, k % g.cols, ?_⟩
    rw [g.entry?_eq_some ⟨row_lt hcells, col_lt hcells⟩]
    simp only [Grid.entry, hindex]
  · rintro ⟨i, j, h⟩
    have hin := lt_of_entry?_eq_some h
    rw [g.entry?_eq_some hin] at h
    exact ⟨i * g.cols + j, g.size_entries ▸ index_lt hin.1 hin.2, Option.some.inj h⟩

theorem mem_cells {g : Grid α} {c : Cell} {a : α} :
    (c, a) ∈ g.cells ↔ g.entry? c.row c.col = some a := by
  simp only [cells, List.mem_flatMap, List.mem_map, List.mem_finRange, true_and, Prod.mk.injEq]
  refine ⟨?_, fun h => ?_⟩
  · rintro ⟨i, j, rfl, rfl⟩
    exact g.entry?_entry i j
  · have hlt := lt_of_entry?_eq_some h
    rw [g.entry?_eq_some hlt] at h
    exact ⟨⟨c.row, hlt.1⟩, ⟨c.col, hlt.2⟩, rfl, Option.some.inj h⟩

theorem index_injective {cols i i' j j' : Nat} (hj : j < cols) (hj' : j' < cols)
    (h : i * cols + j = i' * cols + j') : i = i' ∧ j = j' := by
  have hpos : 0 < cols := Nat.lt_of_le_of_lt (Nat.zero_le j) hj
  have hdiv := congrArg (· / cols) h
  have hmod := congrArg (· % cols) h
  simp only [Nat.mul_comm _ cols, Nat.mul_add_div hpos, Nat.div_eq_of_lt hj, Nat.div_eq_of_lt hj',
    Nat.add_zero] at hdiv
  simp only [Nat.mul_comm _ cols, Nat.mul_add_mod, Nat.mod_eq_of_lt hj, Nat.mod_eq_of_lt hj']
    at hmod
  exact ⟨hdiv, hmod⟩

theorem entry?_put {g : Grid α} {r c : Nat} (h : r < g.rows ∧ c < g.cols) (value : α) (i j : Nat) :
    entry? (g.put r c value) i j = if i = r ∧ j = c then some value else g.entry? i j := by
  let replaced : Grid α :=
    { g with
      entries := g.entries.setIfInBounds (r * g.cols + c) value
      size_entries := by rw [Array.size_setIfInBounds, g.size_entries] }
  have hput : g.put r c value = replaced := if_pos h
  rw [hput]
  by_cases hij : i < g.rows ∧ j < g.cols
  · rw [replaced.entry?_eq_some hij, g.entry?_eq_some hij]
    have hsize : i * g.cols + j < g.entries.size := g.size_entries ▸ index_lt hij.1 hij.2
    by_cases hcell : i = r ∧ j = c
    · obtain ⟨rfl, rfl⟩ := hcell
      rw [if_pos ⟨rfl, rfl⟩]
      exact congrArg some (Array.getElem_setIfInBounds_self (by simpa using hsize))
    · have hindex : r * g.cols + c ≠ i * g.cols + j := fun heq =>
        hcell ((index_injective h.2 hij.2 heq).imp Eq.symm Eq.symm)
      rw [if_neg hcell]
      exact congrArg some (Array.getElem_setIfInBounds_ne hsize hindex)
  · have hcell : ¬ (i = r ∧ j = c) := by
      rintro ⟨rfl, rfl⟩
      exact hij h
    rw [replaced.entry?_eq_none hij, if_neg hcell, g.entry?_eq_none hij]

theorem nodup_cells (g : Grid α) : (g.cells.map Prod.fst).Nodup := by
  have hcells : g.cells.map Prod.fst =
      (List.finRange g.rows).flatMap fun i => (List.finRange g.cols).map fun j =>
        (⟨i.val, j.val⟩ : Cell) := by
    simp [cells, List.map_flatMap, Function.comp_def]
  rw [hcells, List.nodup_flatMap]
  refine ⟨fun i _ => ?_, ?_⟩
  · refine (List.nodup_finRange g.cols).map fun j j' hj => ?_
    simpa [Fin.ext_iff] using hj
  · refine (List.nodup_finRange g.rows).imp fun {i i'} hne => ?_
    simp only [Function.onFun, List.disjoint_left, List.mem_map, List.mem_finRange, true_and]
    rintro c ⟨j, rfl⟩ ⟨j', hj'⟩
    simp only [Cell.mk.injEq] at hj'
    exact hne (Fin.ext hj'.1.symm)

/-! ## Blocks on the diagonal -/

@[simp] theorem rows_blockDiagonal (fill : α) (blocks : List (Grid α)) :
    (blockDiagonal fill blocks).rows = (blocks.map rows).sum := rfl

@[simp] theorem cols_blockDiagonal (fill : α) (blocks : List (Grid α)) :
    (blockDiagonal fill blocks).cols = (blocks.map cols).sum := rfl

theorem entry?_blockDiagonal (fill : α) (blocks : List (Grid α)) {i j : Nat}
    (h : i < (blocks.map rows).sum ∧ j < (blocks.map cols).sum) :
    entry? (blockDiagonal fill blocks) i j = some ((diagonalCell? blocks i j).getD fill) := by
  unfold blockDiagonal
  rw [entry?_tabulate _ h]

theorem diagonalCell?_eq_none {blocks : List (Grid α)} {i j : Nat}
    (h : ¬ (i < (blocks.map rows).sum ∧ j < (blocks.map cols).sum)) :
    diagonalCell? blocks i j = none := by
  induction blocks generalizing i j with
  | nil => rfl
  | cons g rest ih =>
    simp only [List.map_cons, List.sum_cons] at h
    unfold diagonalCell?
    rw [if_neg (by omega)]
    split
    · exact ih (by omega)
    · rfl

theorem shape_blockDiagonal_congr (fill : α) (fill' : β) {as : List (Grid α)} {bs : List (Grid β)}
    (h : as.map shape = bs.map shape) :
    shape (blockDiagonal fill as) = shape (blockDiagonal fill' bs) := by
  have hrows := congrArg (fun shapes => (shapes.map Prod.fst).sum) h
  have hcols := congrArg (fun shapes => (shapes.map Prod.snd).sum) h
  simp only [List.map_map] at hrows hcols
  exact Prod.ext hrows hcols

theorem forall₂_shape_iff {as : List (Grid α)} {bs : List (Grid β)} :
    List.Forall₂ (fun a b => shape a = shape b) as bs ↔ as.map shape = bs.map shape := by
  rw [← List.forall₂_eq_eq_eq, List.forall₂_map_left_iff, List.forall₂_map_right_iff]

/-- What is read along the diagonal are the entries of the blocks. -/
theorem exists_diagonalCell?_iff {blocks : List (Grid α)} {a : α} :
    (∃ i j, diagonalCell? blocks i j = some a) ↔ ∃ g ∈ blocks, ∃ i j, g.entry? i j = some a := by
  induction blocks with
  | nil =>
    refine ⟨?_, ?_⟩
    · rintro ⟨i, j, h⟩
      cases h
    · rintro ⟨g, hg, -⟩
      cases hg
  | cons g rest ih =>
    refine ⟨?_, ?_⟩
    · rintro ⟨i, j, h⟩
      unfold diagonalCell? at h
      split at h
      · exact ⟨g, List.mem_cons_self, i, j, h⟩
      · split at h
        · obtain ⟨g', hg', hentry⟩ := ih.1 ⟨_, _, h⟩
          exact ⟨g', List.mem_cons_of_mem _ hg', hentry⟩
        · cases h
    · rintro ⟨g', hg', i, j, h⟩
      rcases List.mem_cons.1 hg' with rfl | hg'
      · refine ⟨i, j, ?_⟩
        rw [diagonalCell?, if_pos (lt_of_entry?_eq_some h), h]
      · obtain ⟨r, c, hcell⟩ := ih.2 ⟨g', hg', i, j, h⟩
        refine ⟨g.rows + r, g.cols + c, ?_⟩
        rw [diagonalCell?, if_neg (by omega), if_pos (by omega), Nat.add_sub_cancel_left,
          Nat.add_sub_cancel_left, hcell]

theorem isSome_diagonalCell?_congr {as : List (Grid α)} {bs : List (Grid β)}
    (h : List.Forall₂ (fun a b => shape a = shape b) as bs) (i j : Nat) :
    (diagonalCell? as i j).isSome = (diagonalCell? bs i j).isSome := by
  induction h generalizing i j with
  | nil => rfl
  | @cons a b as bs hab _ ih =>
    obtain ⟨hrows, hcols⟩ := Prod.mk.inj hab
    unfold diagonalCell?
    rw [← hrows, ← hcols]
    split
    · rw [a.entry?_eq_some ‹_›, b.entry?_eq_some (hrows ▸ hcols ▸ ‹_›)]
      rfl
    · split
      · exact ih _ _
      · rfl

theorem diagonalCell?_map (f : α → β) (blocks : List (Grid α)) (i j : Nat) :
    diagonalCell? (blocks.map (Grid.map f)) i j = (diagonalCell? blocks i j).map f := by
  induction blocks generalizing i j with
  | nil => rfl
  | cons g rest ih =>
    simp only [List.map_cons, diagonalCell?, rows_map, cols_map, entry?_map, ih]
    split
    · rfl
    · split <;> rfl

theorem map_blockDiagonal (f : α → β) (fill : α) (blocks : List (Grid α)) :
    (blockDiagonal fill blocks).map f = blockDiagonal (f fill) (blocks.map (Grid.map f)) := by
  have hrows : (blocks.map (Grid.map f)).map rows = blocks.map rows := by simp [Function.comp_def]
  have hcols : (blocks.map (Grid.map f)).map cols = blocks.map cols := by simp [Function.comp_def]
  refine ext_entry? (by simp [hrows]) (by simp [hcols]) fun i j hi hj => ?_
  rw [entry?_map, entry?_blockDiagonal _ _ ⟨hi, hj⟩,
    entry?_blockDiagonal _ _ (by rw [hrows, hcols]; exact ⟨hi, hj⟩), diagonalCell?_map,
    Option.map_some]
  cases diagonalCell? blocks i j <;> rfl

theorem blockDiagonal_singleton (fill : α) (g : Grid α) : blockDiagonal fill [g] = g := by
  refine ext_entry? (by simp) (by simp) fun i j hi hj => ?_
  have h : i < g.rows ∧ j < g.cols := by simpa using And.intro hi hj
  rw [entry?_blockDiagonal _ _ ⟨hi, hj⟩, diagonalCell?, if_pos h, g.entry?_eq_some h,
    Option.getD_some]

/-- The first block is read in its own cells, the others past it, and the fill elsewhere. -/
theorem entry?_blockDiagonal_cons (fill : α) (g : Grid α) (rest : List (Grid α)) {i j : Nat}
    (h : i < g.rows + (rest.map rows).sum ∧ j < g.cols + (rest.map cols).sum) :
    entry? (blockDiagonal fill (g :: rest)) i j =
      if i < g.rows ∧ j < g.cols then g.entry? i j
      else if g.rows ≤ i ∧ g.cols ≤ j then
        entry? (blockDiagonal fill rest) (i - g.rows) (j - g.cols)
      else some fill := by
  rw [entry?_blockDiagonal _ _ (by simpa using h), diagonalCell?]
  by_cases hfirst : i < g.rows ∧ j < g.cols
  · rw [if_pos hfirst, if_pos hfirst, g.entry?_eq_some hfirst, Option.getD_some]
  · rw [if_neg hfirst, if_neg hfirst]
    split
    · rw [entry?_blockDiagonal _ _ (by omega)]
    · rfl

/-- Blocks placed after others are read past their rows and columns. -/
theorem diagonalCell?_append (as bs : List (Grid α)) (i j : Nat) :
    diagonalCell? (as ++ bs) i j =
      if i < (as.map rows).sum ∧ j < (as.map cols).sum then diagonalCell? as i j
      else if (as.map rows).sum ≤ i ∧ (as.map cols).sum ≤ j then
        diagonalCell? bs (i - (as.map rows).sum) (j - (as.map cols).sum)
      else none := by
  induction as generalizing i j with
  | nil => simp
  | cons g rest ih =>
    simp only [List.cons_append, diagonalCell?, List.map_cons, List.sum_cons, ih]
    by_cases hfirst : i < g.rows ∧ j < g.cols
    · rw [if_pos hfirst, if_pos (by omega), if_pos hfirst]
    · rw [if_neg hfirst, if_neg hfirst]
      by_cases hlater : g.rows ≤ i ∧ g.cols ≤ j
      · rw [if_pos hlater, if_pos hlater, Nat.sub_sub, Nat.sub_sub]
        congr 1
        · rw [eq_iff_iff]
          omega
        · congr 1
          rw [eq_iff_iff]
          omega
      · have hpast : ¬ (g.rows + (rest.map rows).sum ≤ i ∧ g.cols + (rest.map cols).sum ≤ j) := by
          omega
        rw [if_neg hlater, if_neg hlater, if_neg hpast, ite_self]

theorem blockDiagonal_flatten (fill : α) (lists : List (List (Grid α))) :
    blockDiagonal fill lists.flatten = blockDiagonal fill (lists.map (blockDiagonal fill)) := by
  have hcell : ∀ i j, (diagonalCell? lists.flatten i j).getD fill =
      (diagonalCell? (lists.map (blockDiagonal fill)) i j).getD fill := by
    induction lists with
    | nil => exact fun _ _ => rfl
    | cons as rest ih =>
      intro i j
      rw [List.flatten_cons, diagonalCell?_append, List.map_cons, diagonalCell?,
        ← rows_blockDiagonal fill, ← cols_blockDiagonal fill]
      by_cases h : i < (blockDiagonal fill as).rows ∧ j < (blockDiagonal fill as).cols
      · rw [if_pos h, if_pos h, entry?_blockDiagonal fill as h, Option.getD_some]
      · rw [if_neg h, if_neg h]
        split
        · exact ih _ _
        · rfl
  have hrows : (lists.flatten.map rows).sum = ((lists.map (blockDiagonal fill)).map rows).sum := by
    rw [List.map_flatten, List.sum_flatten, List.map_map, List.map_map]
    rfl
  have hcols : (lists.flatten.map cols).sum = ((lists.map (blockDiagonal fill)).map cols).sum := by
    rw [List.map_flatten, List.sum_flatten, List.map_map, List.map_map]
    rfl
  refine ext_entry? hrows hcols fun i j hi hj => ?_
  rw [entry?_blockDiagonal _ _ ⟨hi, hj⟩, hcell,
    entry?_blockDiagonal _ _ (by rw [← hrows, ← hcols]; exact ⟨hi, hj⟩)]

/-! ## Windows -/

theorem window_eq_ok {g w : Grid α} {r₀ r₁ c₀ c₁ : Nat} (h : g.window r₀ r₁ c₀ c₁ = .ok w) :
    w.rows = r₁ - r₀ ∧ w.cols = c₁ - c₀ ∧
      ∀ i j, i < r₁ - r₀ → j < c₁ - c₀ → w.entry? i j = g.entry? (r₀ + i) (c₀ + j) := by
  unfold window at h
  split at h
  · rename_i hin
    cases h
    refine ⟨rfl, rfl, fun i j hi hj => ?_⟩
    rw [entry?_tabulate _ ⟨hi, hj⟩, g.entry?_eq_some ⟨by omega, by omega⟩]
  split at h
  · cases h
    exact ⟨rfl, rfl, fun i j hi hj => by omega⟩
  split at h
  · cases h
    exact ⟨rfl, rfl, fun i j hi hj => by omega⟩
  split at h
  · cases h
  split at h
  · cases h
  · cases h

theorem window_self (g : Grid α) : g.window 0 g.rows 0 g.cols = .ok g := by
  cases h : g.window 0 g.rows 0 g.cols with
  | ok w =>
    obtain ⟨hrows, hcols, hread⟩ := window_eq_ok h
    refine congrArg Except.ok <| ext_entry? hrows hcols fun i j hi hj => ?_
    rw [hread i j (hrows ▸ hi) (hcols ▸ hj), Nat.zero_add, Nat.zero_add]
  | error c =>
    unfold window at h
    rw [dif_pos ⟨Nat.le_refl _, Nat.le_refl _⟩] at h
    cases h

/-- The leading square of a grid is there exactly if the grid has enough columns. -/
theorem exists_window_iff {g : Grid α} {n : Nat} (hrows : g.rows = n) :
    (∃ w, g.window 0 n 0 n = .ok w) ↔ n ≤ g.cols := by
  subst hrows
  unfold window
  constructor
  · intro hexists
    by_contra hlt
    have hpos : 0 < g.rows := by omega
    rw [dif_neg (by omega), dif_neg (by omega), dif_neg (by omega), if_neg (by omega),
      if_pos (by omega)] at hexists
    obtain ⟨w, hw⟩ := hexists
    cases hw
  · intro hle
    exact ⟨_, dif_pos ⟨Nat.le_refl _, hle⟩⟩

end Semidefinite.Grid
