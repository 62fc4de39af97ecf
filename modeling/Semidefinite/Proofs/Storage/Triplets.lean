import Semidefinite.Proofs.Doubles
import Semidefinite.Proofs.Storage.Dense
import Semidefinite.Storage.Triplets

/-!
# Storage by triplets is faithful

A cell has one triplet at most, and no triplet is zero (`Triplets.Valid`): an
overwrite drops the triplet that the cell had before it appends another. So each
sum of triplets has a single term, which it starts from zero to reach.
-/

namespace Semidefinite.Triplets

open Storage

variable {K : Type}

theorem filter_key_of_nodup {entries : List (Cell × K)} (hnodup : (entries.map Prod.fst).Nodup)
    {c : Cell} {v : K} (hv : (c, v) ∈ entries) :
    (entries.filter fun (cell, _) => cell == c) = [(c, v)] := by
  induction entries with
  | nil => cases hv
  | cons p rest ih =>
    rw [List.map_cons, List.nodup_cons] at hnodup
    rcases List.mem_cons.1 hv with rfl | hv
    · have hrest : (rest.filter fun (cell, _) => cell == c) = [] := by
        refine List.filter_eq_nil_iff.2 fun q hq => ?_
        rw [beq_iff_eq]
        intro heq
        exact hnodup.1 (List.mem_map.2 ⟨q, hq, heq⟩)
      rw [List.filter_cons, if_pos (beq_self_eq_true c), hrest]
    · have hne : ¬ (p.1 == c) = true := by
        rw [beq_iff_eq]
        intro heq
        exact hnodup.1 (List.mem_map.2 ⟨(c, v), hv, heq.symm⟩)
      rw [List.filter_cons, if_neg hne, ih hnodup.2 hv]

variable [Scalar K]

/-- The triplets are in distinct cells of the matrix, and none of them is zero. -/
structure Valid (m : Triplets K) : Prop where
  nodup : (m.written.toList.map Prod.fst).Nodup
  inside : ∀ p ∈ m.written.toList, p.1.row < m.rows ∧ p.1.col < m.cols
  nonzero : ∀ p ∈ m.written.toList, (p.2 == 0) = false

theorem Valid.without {m : Triplets K} (h : Valid m) (c : Cell) :
    Valid { m with written := m.written.filter fun (cell, _) => cell != c } := by
  have hsublist :
      (m.written.filter fun (cell, _) => cell != c).toList.Sublist m.written.toList := by
    rw [Array.toList_filter]
    exact List.filter_sublist
  exact ⟨h.nodup.sublist (hsublist.map _), fun p hp => h.inside p (hsublist.subset hp),
    fun p hp => h.nonzero p (hsublist.subset hp)⟩

theorem Valid.push {m : Triplets K} (h : Valid m) {c : Cell} (hc : Inside m c) {v : K}
    (hnew : c ∉ m.written.toList.map Prod.fst) (hv : (v == 0) = false) :
    Valid { m with written := m.written.push (c, v) } := by
  have hmem : ∀ {p : Cell × K}, p ∈ (m.written.push (c, v)).toList →
      p ∈ m.written.toList ∨ p = (c, v) := by
    intro p hp
    rwa [Array.toList_push, List.mem_append, List.mem_singleton] at hp
  refine ⟨?_, fun p hp => ?_, fun p hp => ?_⟩
  · rw [Array.toList_push, List.map_append, List.nodup_append]
    refine ⟨h.nodup, List.nodup_singleton _, fun a ha b hb => ?_⟩
    rw [List.map_singleton, List.mem_singleton] at hb
    rintro rfl
    obtain rfl : a = c := hb
    exact hnew ha
  · rcases hmem hp with hp | rfl
    · exact h.inside p hp
    · exact hc
  · rcases hmem hp with hp | rfl
    · exact h.nonzero p hp
    · exact hv

theorem ascending_kept (m : Triplets K) : (kept m).Ascending :=
  (Tally.ascending_ofList m.written.toList).dropZeros

section Kept
variable [LawfulStart K] {m : Triplets K}

/-- What is kept are the triplets. -/
theorem Valid.mem_kept (h : Valid m) {p : Cell × K} :
    p ∈ (kept m).entries ↔ p ∈ m.written.toList := by
  have hentries : p ∈ (kept m).entries ↔
      p ∈ (Tally.ofList m.written.toList).entries ∧ (p.2 == 0) = false := by
    show p ∈ (Tally.ofList m.written.toList).dropZeros.entries ↔ _
    unfold Tally.dropZeros
    rw [List.mem_filter]
    simp [bne]
  rw [hentries, Tally.mem_ofList_of_nodup h.nodup]
  constructor
  · rintro ⟨⟨q, hq, rfl⟩, -⟩
    rwa [LawfulStart.zero_add (h.nonzero q hq)]
  · intro hp
    refine ⟨⟨p, hp, ?_⟩, h.nonzero p hp⟩
    rw [LawfulStart.zero_add (h.nonzero p hp)]

theorem Valid.mem_keys (h : Valid m) {c : Cell} :
    c ∈ (kept m).keys ↔ c ∈ m.written.toList.map Prod.fst := by
  simp only [Tally.keys, List.mem_map, h.mem_kept]

theorem Valid.inside_of_mem_kept (h : Valid m) {p : Cell × K} (hp : p ∈ (kept m).entries) :
    p.1.row < m.rows ∧ p.1.col < m.cols :=
  h.inside p (h.mem_kept.1 hp)

/-! ## Writing -/

theorem Valid.exists_setFresh (h : Valid m) {c : Cell} (hc : Inside m c) (v : K)
    (hnew : c ∉ (kept m).keys) :
    ∃ m', m.setFresh c.row c.col v = .ok m' ∧ Valid m' ∧ Written m m' c v := by
  rw [h.mem_keys] at hnew
  have hnone : ∀ u, (c, u) ∉ m.written.toList := fun u hu => hnew (List.mem_map_of_mem hu)
  by_cases hv : (v == 0) = true
  · refine ⟨m, ?_, h, rfl, fun c' u => ?_⟩
    · unfold setFresh
      rw [bne, hv]
      rfl
    · rw [h.mem_kept]
      by_cases hcell : c' = c
      · subst hcell
        simp [hnone, hv]
      · rw [if_neg hcell]
  · have hv : (v == 0) = false := by simpa using hv
    have hvalid := h.push hc hnew hv
    refine ⟨_, ?_, hvalid, rfl, fun c' u => ?_⟩
    · have hin : c.row < m.rows ∧ c.col < m.cols := hc
      unfold setFresh Triplets.push
      rw [bne, hv, if_pos hin]
      rfl
    · rw [hvalid.mem_kept, h.mem_kept, Array.toList_push, List.mem_append, List.mem_singleton]
      by_cases hcell : c' = c
      · subst hcell
        simp [hnone, hv]
      · simp [hcell]

theorem Valid.exists_set (h : Valid m) {c : Cell} (hc : Inside m c) (v : K) :
    ∃ m', m.set c.row c.col v = .ok m' ∧ Valid m' ∧ Written m m' c v := by
  have hothers := h.without c
  have hmem : ∀ p : Cell × K,
      p ∈ (m.written.filter fun (cell, _) => cell != c).toList ↔
        p ∈ m.written.toList ∧ p.1 ≠ c := by
    intro p
    rw [Array.toList_filter, List.mem_filter, bne_iff_ne]
  have hnew : c ∉ (kept ({ m with written := m.written.filter fun (cell, _) => cell != c } :
      Triplets K)).keys := by
    rw [hothers.mem_keys]
    intro hc
    obtain ⟨p, hp, rfl⟩ := List.mem_map.1 hc
    exact ((hmem p).1 hp).2 rfl
  obtain ⟨m', hset, hvalid, hwritten⟩ := hothers.exists_setFresh hc v hnew
  refine ⟨m', hset, hvalid, hwritten.shape, fun c' u => ?_⟩
  rw [hwritten.kept, hothers.mem_kept, hmem, h.mem_kept]
  by_cases hcell : c' = c
  · rw [if_pos hcell, if_pos hcell]
  · rw [if_neg hcell, if_neg hcell, and_iff_left hcell]

/-! ## Reading -/

theorem Valid.alike_get (h : Valid m) (c : Cell) :
    Alike (m.get c.row c.col) ((kept m).total c) := by
  unfold get
  by_cases hc : c ∈ (kept m).keys
  · obtain ⟨⟨c, v⟩, hv, rfl⟩ := List.mem_map.1 hc
    rw [Tally.total_of_mem m.ascending_kept hv,
      filter_key_of_nodup h.nodup (h.mem_kept.1 hv)]
    exact .inl (LawfulStart.neg_zero_add (h.nonzero _ (h.mem_kept.1 hv)))
  · have hnone : (m.written.toList.filter fun (cell, _) => cell == c) = [] := by
      refine List.filter_eq_nil_iff.2 fun q hq => ?_
      rw [beq_iff_eq]
      intro heq
      exact hc (h.mem_keys.2 (List.mem_map.2 ⟨q, hq, heq⟩))
    rw [Tally.total_of_not_mem hc, hnone]
    exact .inr ⟨LawfulStart.neg_zero_beq, LawfulZero.zero_beq⟩

instance : FaithfulStorage Triplets K where
  Valid := Valid
  valid_zeros _ _ := ⟨.nil, nofun, nofun⟩
  shape_zeros _ _ := rfl
  kept_zeros _ _ := rfl
  exists_set v h hc := h.exists_set hc v
  exists_setFresh v h hc hnew := h.exists_setFresh hc v hnew
  ascending {m} _ := m.ascending_kept
  exists_get {m c} h _ := ⟨m.get c.row c.col, rfl, h.alike_get c⟩
  shape_toDense {m} h := (entry?_fill m.ascending_kept fun _ hp => h.inside_of_mem_kept hp).1
  exists_entry {m c} h hc :=
    ⟨_, (entry?_fill m.ascending_kept fun _ hp => h.inside_of_mem_kept hp).2 c hc.1 hc.2, .inl rfl⟩

theorem Valid.count_eq (h : Valid m) : m.count = (Storage.nonzeros m).length := by
  have hperm : m.written.toList.Perm (kept m).entries :=
    (List.perm_ext_iff_of_nodup h.nodup.of_map m.ascending_kept.nodup_keys.of_map).2
      fun p => h.mem_kept.symm
  have hcount : m.count = m.written.toList.length := Array.length_toList.symm
  exact hcount.trans hperm.length_eq

end Kept

end Semidefinite.Triplets
