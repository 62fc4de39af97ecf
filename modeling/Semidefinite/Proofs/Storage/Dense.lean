import Semidefinite.Proofs.Storage.Writes
import Semidefinite.Storage.Dense

/-!
# Dense storage is faithful

A grid keeps every value, so a cell reads exactly what was written into it, and
filling a grid with the values that another storage keeps writes that storage out
(`entry?_fill`).
-/

namespace Semidefinite

open Storage

variable {K : Type}

namespace Grid

theorem rowMajor_cells (g : Grid K) : g.cells.Pairwise fun p q => p.1.Precedes q.1 := by
  unfold cells
  rw [List.pairwise_flatMap]
  refine ⟨fun i _ => ?_, ?_⟩
  · rw [List.pairwise_map]
    exact (List.pairwise_lt_finRange g.cols).imp fun {j j'} hj => .inr ⟨rfl, hj⟩
  · refine (List.pairwise_lt_finRange g.rows).imp fun {i i'} hi p hp q hq => ?_
    obtain ⟨j, -, rfl⟩ := List.mem_map.1 hp
    obtain ⟨j', -, rfl⟩ := List.mem_map.1 hq
    exact .inl hi

@[simp] theorem shape_put (g : Grid K) (i j : Nat) (v : K) : (g.put i j v).shape = g.shape := by
  unfold put
  split <;> rfl

variable [Scalar K]

theorem value_eq (g : Grid K) (i j : Nat) : value g i j = (g.entry? i j).getD 0 := by
  rw [value, show Storage.get g i j = g.read i j from rfl, read]
  cases g.entry? i j <;> rfl

theorem mem_kept {g : Grid K} {c : Cell} {u : K} :
    (c, u) ∈ (kept g).entries ↔ g.entry? c.row c.col = some u ∧ (u == 0) = false := by
  show (c, u) ∈ g.nonzeros ↔ _
  unfold nonzeros
  rw [List.mem_filter, mem_cells]
  simp [bne]

theorem ascending_kept (g : Grid K) : (kept g).Ascending := by
  have hcells : g.nonzeros.Pairwise fun p q => p.1.Precedes q.1 := g.rowMajor_cells.filter _
  exact hcells.imp Cell.compare_eq_lt.2

theorem alike_total_kept [LawfulZero K] {g : Grid K} {c : Cell} {u : K}
    (h : g.entry? c.row c.col = some u) : Alike u ((kept g).total c) := by
  by_cases hu : (u == 0) = true
  · -- a zero is not kept, and its cell holds no other value
    have hc : c ∉ (kept g).keys := by
      intro hc
      obtain ⟨⟨c, v⟩, hp, rfl⟩ := List.mem_map.1 hc
      obtain ⟨hv, hne⟩ := mem_kept.1 hp
      rw [h] at hv
      cases hv
      rw [hu] at hne
      cases hne
    rw [Tally.total_of_not_mem hc]
    exact .inr ⟨hu, LawfulZero.zero_beq⟩
  · rw [Tally.total_of_mem g.ascending_kept (mem_kept.2 ⟨h, by simpa using hu⟩)]
    exact .inl rfl

theorem get_eq_of_some {g : Grid K} {i j : Nat} {v : K} (h : g.entry? i j = some v) :
    Storage.get g i j = .ok v := by
  show g.read i j = _
  rw [read, h]

theorem exists_write {g : Grid K} {c : Cell} (v : K) (hc : Inside g c) :
    ∃ g', g.write c.row c.col v = .ok g' ∧ Written g g' c v := by
  have hin : c.row < g.rows ∧ c.col < g.cols := hc
  refine ⟨g.put c.row c.col v, if_pos hin, g.shape_put _ _ _, fun c' u => ?_⟩
  rw [mem_kept, mem_kept, entry?_put hin]
  by_cases h : c' = c
  · subst h
    rw [if_pos ⟨rfl, rfl⟩, if_pos rfl]
    constructor
    · rintro ⟨hu, hne⟩
      cases hu
      exact ⟨rfl, hne⟩
    · rintro ⟨rfl, hne⟩
      exact ⟨rfl, hne⟩
  · have hne : ¬ (c'.row = c.row ∧ c'.col = c.col) := by
      intro heq
      cases c; cases c'
      simp_all
    rw [if_neg hne, if_neg h]

instance [LawfulZero K] : FaithfulStorage Grid K where
  Valid _ := True
  valid_zeros _ _ := trivial
  shape_zeros _ _ := rfl
  kept_zeros rows cols := by
    refine List.eq_nil_iff_forall_not_mem.2 fun p hp => ?_
    obtain ⟨hentry, hne⟩ := mem_kept.1 hp
    obtain ⟨-, hzero⟩ := entry?_tabulate_eq_some hentry
    rw [← hzero, LawfulZero.zero_beq] at hne
    cases hne
  exists_set v _ hc := by
    obtain ⟨g', hg', hwritten⟩ := exists_write v hc
    exact ⟨g', hg', trivial, hwritten⟩
  exists_setFresh v _ hc _ := by
    obtain ⟨g', hg', hwritten⟩ := exists_write v hc
    exact ⟨g', hg', trivial, hwritten⟩
  ascending {g} _ := g.ascending_kept
  exists_get {g c} _ hc := by
    have hentry := g.entry?_eq_some hc
    exact ⟨_, get_eq_of_some hentry, alike_total_kept hentry⟩
  shape_toDense _ := rfl
  exists_entry {g c} _ hc := ⟨_, g.entry?_eq_some hc, alike_total_kept (g.entry?_eq_some hc)⟩

end Grid

/-! ## Filling a grid -/

namespace Storage

theorem entry?_putAll {entries : List (Cell × K)} {g : Grid K}
    (hnodup : (entries.map Prod.fst).Nodup)
    (hinside : ∀ p ∈ entries, p.1.row < g.rows ∧ p.1.col < g.cols) (c : Cell) :
    (entries.foldl (fun g (cell, v) => g.put cell.row cell.col v) g).shape = g.shape ∧
      Grid.entry? (entries.foldl (fun g (cell, v) => g.put cell.row cell.col v) g) c.row c.col =
        (entries.lookup c).or (g.entry? c.row c.col) := by
  induction entries generalizing g with
  | nil => exact ⟨rfl, rfl⟩
  | cons p rest ih =>
    obtain ⟨⟨i, j⟩, v⟩ := p
    rw [List.map_cons, List.nodup_cons] at hnodup
    obtain ⟨hfirst, hrest⟩ := List.forall_mem_cons.1 hinside
    obtain ⟨hrows, hcols⟩ := Prod.mk.inj (g.shape_put i j v)
    obtain ⟨hshape, hentry⟩ := ih (g := g.put i j v) hnodup.2 (by rwa [hrows, hcols])
    refine ⟨hshape.trans (g.shape_put i j v), ?_⟩
    rw [List.foldl_cons, hentry, Grid.entry?_put hfirst, List.lookup_cons]
    by_cases h : c = ⟨i, j⟩
    · subst h
      -- no later entry goes into this cell
      have hnone : rest.lookup ⟨i, j⟩ = none := by
        refine List.lookup_eq_none_iff.2 fun q hq => ?_
        rw [bne_iff_ne]
        intro heq
        exact hnodup.1 (List.mem_map.2 ⟨q, hq, heq.symm⟩)
      simp [hnone]
    · have hcell : ¬ (c.row = i ∧ c.col = j) := by
        rintro ⟨rfl, rfl⟩
        exact h rfl
      rw [if_neg hcell, beq_false_of_ne h]

variable [Scalar K]

/-- A grid that is filled with the entries of a tally reads the totals. -/
theorem entry?_fill {t : Tally Cell K} {size : Nat × Nat} (ht : t.Ascending)
    (hinside : ∀ p ∈ t.entries, p.1.row < size.1 ∧ p.1.col < size.2) :
    (fill size t.entries).shape = size ∧
      ∀ c : Cell, c.row < size.1 → c.col < size.2 →
        Grid.entry? (fill size t.entries) c.row c.col = some (t.total c) := by
  unfold fill
  refine ⟨(entry?_putAll ht.nodup_keys hinside ⟨0, 0⟩).1, fun c hrow hcol => ?_⟩
  rw [(entry?_putAll ht.nodup_keys hinside c).2, Grid.entry?_tabulate _ ⟨hrow, hcol⟩, Tally.total]
  cases t.entries.lookup c <;> rfl

end Storage

end Semidefinite
