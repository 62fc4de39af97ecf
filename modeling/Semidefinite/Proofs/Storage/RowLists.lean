import Semidefinite.Proofs.Storage.Dense
import Semidefinite.Storage.RowLists

/-!
# Storage by row lists is faithful

Every row keeps its columns ascending and no zero among its values
(`RowLists.ValidRow`); writing into a row keeps it so, and changes what the row
says of the written column only (`mem_setInRow`).
-/

namespace Semidefinite.RowLists

open Storage

variable {K : Type} [Scalar K]

/-! ## Rows -/

/-- The columns of a row ascend within the matrix, and none of its values is zero. -/
structure ValidRow (cols : Nat) (row : List (Nat × K)) : Prop where
  ascending : row.Pairwise fun p q => p.1 < q.1
  inside : ∀ p ∈ row, p.1 < cols
  nonzero : ∀ p ∈ row, (p.2 == 0) = false

theorem validRow_nil (cols : Nat) : ValidRow cols ([] : List (Nat × K)) :=
  ⟨.nil, nofun, nofun⟩

theorem mem_consNonzero {c j : Nat} {u v : K} {rest : List (Nat × K)} :
    (j, u) ∈ consNonzero c v rest ↔ j = c ∧ u = v ∧ (v == 0) = false ∨ (j, u) ∈ rest := by
  unfold consNonzero
  split
  · rename_i hv
    simp [hv]
  · rename_i hv
    simp only [Bool.not_eq_true] at hv
    simp [hv]

theorem mem_setInRow {c j : Nat} {u v : K} {row : List (Nat × K)}
    (h : row.Pairwise fun p q => p.1 < q.1) :
    (j, u) ∈ setInRow c v row ↔ if j = c then u = v ∧ (v == 0) = false else (j, u) ∈ row := by
  -- past the columns below `c`, the value is put in front of columns above `c`
  have hcons : ∀ rest : List (Nat × K), (∀ p ∈ rest, c < p.1) →
      ((j, u) ∈ consNonzero c v rest ↔
        if j = c then u = v ∧ (v == 0) = false else (j, u) ∈ rest) := by
    intro rest hrest
    rw [mem_consNonzero]
    by_cases hj : j = c
    · have hnot : (j, u) ∉ rest := fun hmem => by
        have := hrest _ hmem
        omega
      simp [hj, hj ▸ hnot]
    · simp [hj]
  induction row with
  | nil => exact hcons [] nofun
  | cons p rest ih =>
    obtain ⟨c', v'⟩ := p
    obtain ⟨hfirst, hrest⟩ := List.pairwise_cons.1 h
    unfold setInRow
    split
    · rename_i hcompare
      have hlt : c < c' := Nat.compare_eq_lt.1 hcompare
      exact hcons _ (List.forall_mem_cons.2 ⟨hlt, fun q hq => Nat.lt_trans hlt (hfirst q hq)⟩)
    · rename_i hcompare
      obtain rfl : c = c' := Nat.compare_eq_eq.1 hcompare
      rw [hcons rest hfirst]
      by_cases hj : j = c
      · rw [if_pos hj, if_pos hj]
      · rw [if_neg hj, if_neg hj]
        simp [hj]
    · rename_i hcompare
      have hlt : c' < c := Nat.compare_eq_gt.1 hcompare
      refine (List.mem_cons.trans (or_congr_right (ih hrest))).trans ?_
      by_cases hj : j = c
      · have hne : (j, u) ≠ (c', v') := by
          intro heq
          have := congrArg Prod.fst heq
          simp only at this
          omega
        simp [hj, hj ▸ hne]
      · simp [hj]

theorem pairwise_consNonzero {c : Nat} {rest : List (Nat × K)}
    (h : rest.Pairwise fun p q => p.1 < q.1) (hbelow : ∀ p ∈ rest, c < p.1) (v : K) :
    (consNonzero c v rest).Pairwise fun p q => p.1 < q.1 := by
  unfold consNonzero
  split
  · exact h
  · exact List.pairwise_cons.2 ⟨hbelow, h⟩

theorem pairwise_setInRow {row : List (Nat × K)} (h : row.Pairwise fun p q => p.1 < q.1)
    (c : Nat) (v : K) : (setInRow c v row).Pairwise fun p q => p.1 < q.1 := by
  induction row with
  | nil => exact pairwise_consNonzero h nofun v
  | cons p rest ih =>
    obtain ⟨c', v'⟩ := p
    obtain ⟨hfirst, hrest⟩ := List.pairwise_cons.1 h
    unfold setInRow
    split
    · rename_i hcompare
      have hlt : c < c' := Nat.compare_eq_lt.1 hcompare
      exact pairwise_consNonzero h
        (List.forall_mem_cons.2 ⟨hlt, fun q hq => Nat.lt_trans hlt (hfirst q hq)⟩) v
    · rename_i hcompare
      obtain rfl : c = c' := Nat.compare_eq_eq.1 hcompare
      exact pairwise_consNonzero hrest hfirst v
    · rename_i hcompare
      have hlt : c' < c := Nat.compare_eq_gt.1 hcompare
      refine List.pairwise_cons.2 ⟨fun ⟨j, u⟩ hp => ?_, ih hrest⟩
      rw [mem_setInRow hrest] at hp
      split at hp
      · omega
      · exact hfirst _ hp

theorem ValidRow.setInRow {cols c : Nat} {row : List (Nat × K)} (h : ValidRow cols row)
    (hc : c < cols) (v : K) : ValidRow cols (setInRow c v row) := by
  refine ⟨pairwise_setInRow h.ascending c v, fun ⟨j, u⟩ hp => ?_, fun ⟨j, u⟩ hp => ?_⟩
  all_goals
    rw [mem_setInRow h.ascending] at hp
    split at hp
  · omega
  · exact h.inside _ hp
  · obtain ⟨rfl, hv⟩ := hp
    exact hv
  · exact h.nonzero _ hp

/-! ## Matrices -/

/-- Every row is in order. -/
def Valid (m : RowLists K) : Prop :=
  ∀ row ∈ m.rows, ValidRow m.cols row

theorem mem_kept {m : RowLists K} {c : Cell} {u : K} :
    (c, u) ∈ (kept m).entries ↔ ∃ row, m.rows[c.row]? = some row ∧ (c.col, u) ∈ row := by
  show (c, u) ∈ m.nonzeros ↔ _
  simp only [nonzeros, List.mem_flatMap, List.mem_map, Prod.exists, Prod.mk.injEq]
  constructor
  · rintro ⟨row, i, hrow, j, v, hv, rfl, rfl⟩
    exact ⟨row, List.mem_zipIdx_iff_getElem?.1 hrow, hv⟩
  · rintro ⟨row, hrow, hu⟩
    exact ⟨row, c.row, List.mem_zipIdx_iff_getElem?.2 hrow, c.col, u, hu, rfl, rfl⟩

theorem Valid.ascending_kept {m : RowLists K} (h : Valid m) : (kept m).Ascending := by
  have hcells : m.nonzeros.Pairwise fun p q => p.1.Precedes q.1 := by
    unfold nonzeros
    rw [List.pairwise_flatMap]
    refine ⟨fun p hp => ?_, ?_⟩
    · rw [List.pairwise_map]
      have hrow := List.fst_mem_of_mem_zipIdx hp
      exact (h _ hrow).ascending.imp fun {q r} hlt => .inr ⟨rfl, hlt⟩
    · have hindices : (m.rows.zipIdx.map Prod.snd).Pairwise (· < ·) := by
        rw [List.zipIdx_map_snd]
        exact List.pairwise_lt_range'
      refine (List.pairwise_map.1 hindices).imp fun {p q} hlt a ha b hb => ?_
      obtain ⟨a', -, rfl⟩ := List.mem_map.1 ha
      obtain ⟨b', -, rfl⟩ := List.mem_map.1 hb
      exact .inl hlt
  exact hcells.imp Cell.compare_eq_lt.2

theorem Valid.inside_of_mem_kept {m : RowLists K} (h : Valid m) {p : Cell × K}
    (hp : p ∈ (kept m).entries) : p.1.row < m.rows.length ∧ p.1.col < m.cols := by
  obtain ⟨row, hrow, hu⟩ := mem_kept.1 hp
  exact ⟨List.getElem?_eq_some_iff.1 hrow |>.1,
    (h row (List.mem_of_getElem? hrow)).inside _ hu⟩

theorem Valid.get_eq {m : RowLists K} (h : Valid m) {c : Cell} (hc : Inside m c) :
    m.get c.row c.col = .ok ((kept m).total c) := by
  have hrow : c.row < m.rows.length := hc.1
  have hcontains : m.contains c.row c.col = true := by
    simp only [contains, Bool.and_eq_true, decide_eq_true_iff]
    exact hc
  have hgetElem := List.getElem?_eq_getElem hrow
  have hvalid := h _ (List.getElem_mem hrow)
  -- the row is a tally of its own
  have hascending : (⟨m.rows[c.row]⟩ : Tally Nat K).Ascending :=
    hvalid.ascending.imp Nat.compare_eq_lt.2
  have htotal : (⟨m.rows[c.row]⟩ : Tally Nat K).total c.col = (kept m).total c := by
    by_cases hcol : c.col ∈ m.rows[c.row].map Prod.fst
    · obtain ⟨⟨j, v⟩, hv, hj⟩ := List.mem_map.1 hcol
      obtain rfl : j = c.col := hj
      rw [Tally.total_of_mem hascending hv,
        Tally.total_of_mem h.ascending_kept (mem_kept.2 ⟨_, hgetElem, hv⟩)]
    · have hkept : c ∉ (kept m).keys := by
        intro hmem
        obtain ⟨⟨c, v⟩, hv, rfl⟩ := List.mem_map.1 hmem
        obtain ⟨row, hrow', hv⟩ := mem_kept.1 hv
        rw [hgetElem] at hrow'
        cases hrow'
        exact hcol (List.mem_map_of_mem hv)
      rw [Tally.total_of_not_mem hcol, Tally.total_of_not_mem hkept]
  unfold get
  rw [if_pos hcontains, hgetElem, Option.getD_some, ← htotal]
  rfl

theorem Valid.exists_set {m : RowLists K} (h : Valid m) {c : Cell} (hc : Inside m c) (v : K) :
    ∃ m', m.set c.row c.col v = .ok m' ∧ Valid m' ∧ Written m m' c v := by
  have hcontains : m.contains c.row c.col = true := by
    simp only [contains, Bool.and_eq_true, decide_eq_true_iff]
    exact hc
  refine ⟨_, if_pos hcontains, fun row hrow => ?_, ?_, fun c' u => ?_⟩
  · obtain ⟨i, hi, rfl⟩ := List.getElem_of_mem hrow
    simp only [List.length_modify] at hi
    rw [List.getElem_modify]
    split
    · exact (h _ (List.getElem_mem hi)).setInRow hc.2 v
    · exact h _ (List.getElem_mem hi)
  · exact Prod.ext (List.length_modify _ _ _) rfl
  · rw [mem_kept, mem_kept]
    simp only [List.getElem?_modify]
    have hgetElem := List.getElem?_eq_getElem (l := m.rows) (i := c.row) hc.1
    have hascending := (h _ (List.getElem_mem (l := m.rows) hc.1)).ascending
    by_cases hrow : c.row = c'.row
    · rw [← hrow, hgetElem]
      have hcell : c' = c ↔ c'.col = c.col := by
        cases c; cases c'
        simp_all
      simp only [Option.map_eq_map, Option.map_some, ↓reduceIte, Option.some.injEq,
        exists_eq_left', mem_setInRow hascending, hcell]
    · have hcell : c' ≠ c := fun heq => hrow (congrArg Cell.row heq).symm
      rw [if_neg hcell]
      simp [hrow]

instance : FaithfulStorage RowLists K where
  Valid := Valid
  valid_zeros rows cols := by
    intro row hrow
    rw [List.eq_of_mem_replicate hrow]
    exact validRow_nil cols
  shape_zeros rows cols := Prod.ext List.length_replicate rfl
  kept_zeros rows cols := by
    refine List.eq_nil_iff_forall_not_mem.2 fun p hp => ?_
    obtain ⟨row, hrow, hp⟩ := mem_kept.1 hp
    have hnil : row = [] := List.eq_of_mem_replicate (List.mem_of_getElem? hrow)
    rw [hnil] at hp
    cases hp
  exists_set v h hc := h.exists_set hc v
  exists_setFresh v h hc _ := h.exists_set hc v
  ascending h := h.ascending_kept
  exists_get h hc := ⟨_, h.get_eq hc, .inl rfl⟩
  shape_toDense h := (entry?_fill h.ascending_kept fun _ hp => h.inside_of_mem_kept hp).1
  exists_entry {m c} h hc :=
    ⟨_, (entry?_fill h.ascending_kept fun _ hp => h.inside_of_mem_kept hp).2 c hc.1 hc.2, .inl rfl⟩

theorem count_eq (m : RowLists K) : m.count = (Storage.nonzeros m).length := by
  show (m.rows.map List.length).sum = m.nonzeros.length
  unfold nonzeros
  have hrows : m.rows.zipIdx.map (fun p => p.1.length) = m.rows.map List.length := by
    rw [← List.zipIdx_map_fst 0 m.rows, List.map_map, List.zipIdx_map_fst]
    rfl
  rw [List.length_flatMap]
  simp only [List.length_map]
  rw [hrows]

end Semidefinite.RowLists
