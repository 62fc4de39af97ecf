import Semidefinite.Proofs.Storage.RowLists
import Semidefinite.Proofs.Storage.Triplets
import Semidefinite.Storage.Choice

/-!
# Matrices list what they read

`Storage.Lists` ties the listing of a matrix to its cells: row after row it names the
cells that read another number than zero. So it is for every matrix of the three
storages, whichever way it was made (`ListingStorage`). A cell may have several
triplets; the listing adds them up from zero and the cell from negative zero, and
the two sums stay alike with every triplet (`Alike.add_right`).
-/

namespace Semidefinite

open Storage

variable {K : Type} [Scalar K]

section Lists
variable {S : Type → Type} [Storage S]

/-- The cells that read another number than zero are listed with these numbers, row after row. -/
structure Storage.Lists (m : S K) : Prop where
  ascending : (kept m).Ascending
  inside : ∀ p ∈ (kept m).entries, Inside m p.1
  nonzero : ∀ p ∈ (kept m).entries, (p.2 == 0) = false
  exists_get : ∀ c, Inside m c → ∃ u, get m c.row c.col = .ok u ∧ Alike u ((kept m).total c)

/-- A storage whose well-formed matrices list what they read. -/
class ListingStorage (S : Type → Type) [Storage S] (K : Type) [Scalar K] where
  WellFormed : S K → Prop
  lists {m : S K} : WellFormed m → Lists m

namespace Storage.Lists
variable {m : S K} (h : Lists m)
include h

theorem alike_value {c : Cell} (hc : Inside m c) :
    Alike (value m c.row c.col) ((kept m).total c) := by
  obtain ⟨u, hget, halike⟩ := h.exists_get c hc
  rwa [value_of_get hget]

theorem value_of_mem {c : Cell} {v : K} (hv : (c, v) ∈ (kept m).entries) :
    value m c.row c.col = v := by
  have halike := h.alike_value (h.inside _ hv)
  rw [Tally.total_of_mem h.ascending hv] at halike
  rcases halike with hvalue | ⟨-, hzero⟩
  · exact hvalue
  · rw [h.nonzero _ hv] at hzero
    cases hzero

theorem value_of_not_mem [LawfulZero K] {c : Cell} (hc : Inside m c) (hnot : c ∉ (kept m).keys) :
    (value m c.row c.col == 0) = true := by
  have halike := h.alike_value hc
  rw [Tally.total_of_not_mem hnot] at halike
  rcases halike with hvalue | ⟨hzero, -⟩
  · rw [hvalue]
    exact LawfulZero.zero_beq
  · exact hzero

/-- The cells that are listed are those that read another number than zero. -/
theorem mem_keys_iff [LawfulZero K] {c : Cell} :
    c ∈ (kept m).keys ↔ Inside m c ∧ (value m c.row c.col == 0) = false := by
  constructor
  · intro hc
    obtain ⟨⟨c, v⟩, hp, rfl⟩ := List.mem_map.1 hc
    refine ⟨h.inside _ hp, ?_⟩
    rw [h.value_of_mem hp]
    exact h.nonzero _ hp
  · rintro ⟨hc, hvalue⟩
    by_contra hnot
    rw [h.value_of_not_mem hc hnot] at hvalue
    cases hvalue

end Storage.Lists

/-- What is written into a faithful storage is listed. -/
theorem Storage.Holds.lists [FaithfulStorage S K] {m : S K} {rows cols : Nat}
    {writes : List (Write K)} (h : Holds m rows cols writes)
    (hwrites : Write.Admissible rows cols writes) : Lists m where
  ascending := FaithfulStorage.ascending h.valid
  inside p hp := by
    have hlast := ((h.kept p.1 p.2).1 hp).1
    unfold Inside
    rw [h.shape]
    by_contra hout
    have hnone : Write.last? writes p.1 = none :=
      Write.last?_eq_none fun w hw heq => hout (heq ▸ hwrites.inside w hw)
    rw [hnone] at hlast
    cases hlast
  nonzero p hp := ((h.kept p.1 p.2).1 hp).2
  exists_get _ := FaithfulStorage.exists_get h.valid

end Lists

/-! ## Dense matrices and row lists -/

instance [LawfulZero K] : ListingStorage Grid K where
  WellFormed _ := True
  lists {g} _ :=
    { ascending := g.ascending_kept
      inside := fun _ hp => Grid.lt_of_entry?_eq_some (Grid.mem_kept.1 hp).1
      nonzero := fun _ hp => (Grid.mem_kept.1 hp).2
      exists_get := fun _ hc => FaithfulStorage.exists_get (m := g) trivial hc }

instance : ListingStorage RowLists K where
  WellFormed := RowLists.Valid
  lists h :=
    { ascending := h.ascending_kept
      inside := fun _ hp => h.inside_of_mem_kept hp
      nonzero := fun p hp => by
        obtain ⟨row, hrow, hu⟩ := RowLists.mem_kept.1 hp
        exact (h row (List.mem_of_getElem? hrow)).nonzero _ hu
      exists_get := fun _ hc => ⟨_, h.get_eq hc, .inl rfl⟩ }

/-! ## Sums of triplets -/

theorem Alike.add_right [LawfulZeros K] {u u' : K} (h : Alike u u') (v : K) :
    Alike (u + v) (u' + v) := by
  rcases h with rfl | ⟨hu, hu'⟩
  · exact .inl rfl
  · by_cases hv : (v == 0) = true
    · exact .inr ⟨LawfulZeros.add_beq_zero hu hv, LawfulZeros.add_beq_zero hu' hv⟩
    · have hv : (v == 0) = false := by simpa using hv
      exact .inl <|
        (LawfulZeros.add_of_beq_zero hu hv).trans (LawfulZeros.add_of_beq_zero hu' hv).symm

theorem Alike.foldl_add [LawfulZeros K] {u u' : K} (h : Alike u u') (own : List (Cell × K)) :
    Alike (own.foldl (fun acc p => acc + p.2) u) (own.foldl (fun acc p => acc + p.2) u') := by
  induction own generalizing u u' with
  | nil => exact h
  | cons p rest ih => exact ih (h.add_right p.2)

namespace Tally

open Std

section Add
variable {κ α : Type} [Ord κ] [TransOrd κ] [LawfulEqOrd κ] [DecidableEq κ] [Zero α] [Add α]

/-- An addition changes the total of its own key. -/
theorem total_add {t : Tally κ α} (ht : t.Ascending) (k l : κ) (v : α) :
    (t.add k v).total l = if l = k then t.total k + v else t.total l := by
  obtain ⟨entries⟩ := t
  unfold Ascending at ht
  simp only [add]
  induction entries with
  | nil =>
    by_cases hl : l = k
    · subst hl
      simp [addEntry, total]
    · rw [if_neg hl, addEntry, total_cons_ne hl]
  | cons p rest ih =>
    obtain ⟨k', w⟩ := p
    obtain ⟨hk', hrest⟩ := List.pairwise_cons.1 ht
    simp only [addEntry]
    split
    · rename_i hlt
      -- the key lies below all others, so it had no total
      have hnew : k ∉ keys ⟨(k', w) :: rest⟩ := by
        intro hk
        obtain ⟨q, hq, hqk⟩ := List.mem_map.1 hk
        rcases List.mem_cons.1 hq with rfl | hq
        · exact key_ne_of_lt hlt hqk.symm
        · exact key_ne_of_lt (TransCmp.lt_trans hlt (hk' q hq)) hqk.symm
      by_cases hl : l = k
      · subst hl
        rw [if_pos rfl, total_cons_self, total_of_not_mem hnew]
      · rw [if_neg hl, total_cons_ne hl]
    · rename_i hcompare
      obtain rfl : k = k' := LawfulEqOrd.eq_of_compare hcompare
      by_cases hl : l = k
      · subst hl
        rw [if_pos rfl, total_cons_self, total_cons_self]
      · rw [if_neg hl, total_cons_ne hl, total_cons_ne hl]
    · rename_i hgt
      have hne : k ≠ k' := (key_ne_of_lt (OrientedCmp.lt_of_gt hgt)).symm
      by_cases hl : l = k'
      · subst hl
        rw [if_neg hne.symm, total_cons_self, total_cons_self]
      · rw [total_cons_ne hl, ih hrest, total_cons_ne hne, total_cons_ne hl]

/-- Contributions change a total by those to its own key, first to last. -/
theorem total_addAll {t : Tally κ α} (ht : t.Ascending) (contributions : List (κ × α)) (k : κ) :
    (t.addAll contributions).total k =
      (contributions.filter fun p => p.1 == k).foldl (fun acc p => acc + p.2) (t.total k) := by
  induction contributions generalizing t with
  | nil => rfl
  | cons p rest ih =>
    rw [show t.addAll (p :: rest) = (t.add p.1 p.2).addAll rest from rfl, ih (ht.add p.1 p.2),
      total_add ht, List.filter_cons]
    by_cases hk : k = p.1
    · rw [if_pos hk, if_pos (beq_iff_eq.2 hk.symm), List.foldl_cons, hk]
    · rw [if_neg hk, if_neg fun h => hk (beq_iff_eq.1 h).symm]

end Add

theorem mem_dropZeros_iff {t : Tally Cell K} {p : Cell × K} :
    p ∈ t.dropZeros.entries ↔ p ∈ t.entries ∧ (p.2 == 0) = false := by
  unfold dropZeros
  rw [List.mem_filter]
  simp [bne]

/-- Without the zeros a total is the same or another zero. -/
theorem alike_total_dropZeros [LawfulZero K] {t : Tally Cell K} (ht : t.Ascending) (c : Cell) :
    Alike (t.total c) (t.dropZeros.total c) := by
  by_cases hc : c ∈ t.dropZeros.keys
  · obtain ⟨⟨c, v⟩, hv, rfl⟩ := List.mem_map.1 hc
    rw [total_of_mem ht.dropZeros hv, total_of_mem ht (mem_dropZeros_iff.1 hv).1]
    exact .inl rfl
  · rw [total_of_not_mem hc]
    refine .inr ⟨?_, LawfulZero.zero_beq⟩
    by_cases hkept : c ∈ t.keys
    · obtain ⟨⟨c, v⟩, hv, rfl⟩ := List.mem_map.1 hkept
      rw [total_of_mem ht hv]
      by_contra hne
      exact hc (List.mem_map_of_mem (mem_dropZeros_iff.2 ⟨hv, by simpa using hne⟩))
    · rw [total_of_not_mem hkept]
      exact LawfulZero.zero_beq

end Tally

namespace Triplets

/-- The triplets lie inside the matrix. -/
def InRange (m : Triplets K) : Prop :=
  ∀ p ∈ m.written.toList, p.1.row < m.rows ∧ p.1.col < m.cols

/-- A cell reads the sum of its triplets, which the listing has, up to the sign of a zero. -/
theorem alike_get [LawfulZeros K] (m : Triplets K) (c : Cell) :
    Alike (m.get c.row c.col) ((kept m).total c) := by
  have hstart : Alike (-0 : K) 0 := .inr ⟨LawfulStart.neg_zero_beq, LawfulZero.zero_beq⟩
  refine Alike.trans ?_ (Tally.alike_total_dropZeros (Tally.ascending_ofList m.written.toList) c)
  rw [Tally.ofList, Tally.total_addAll Tally.ascending_empty]
  exact hstart.foldl_add _

instance [LawfulZeros K] : ListingStorage Triplets K where
  WellFormed := InRange
  lists {m} h :=
    { ascending := m.ascending_kept
      inside := fun p hp => by
        have hentry : p ∈ (Tally.ofList m.written.toList).entries :=
          (Tally.mem_dropZeros_iff.1 hp).1
        have hkey := Tally.mem_keys_ofList.1 (List.mem_map_of_mem hentry)
        obtain ⟨q, hq, hqp⟩ := List.mem_map.1 hkey
        exact hqp ▸ h q hq
      nonzero := fun _ hp => (Tally.mem_dropZeros_iff.1 hp).2
      exists_get := fun c _ => ⟨m.get c.row c.col, rfl, m.alike_get c⟩ }

end Triplets

instance [LawfulZeros K] (b : Backend) : ListingStorage b.Store K :=
  match b with
  | .dense => inferInstanceAs (ListingStorage Grid K)
  | .rowLists => inferInstanceAs (ListingStorage RowLists K)
  | .triplets => inferInstanceAs (ListingStorage Triplets K)

end Semidefinite
