import Semidefinite.LinearForm
import Semidefinite.Proofs.Storage.Writes

/-!
# Storages filled with entries

Filling a storage writes the entries that are not zero into fresh cells
(`Storage.ofEntries_eq_run`). Where the cells are distinct and lie inside the matrix it
succeeds (`Storage.exists_ofEntries`), and each cell reads its entry, or zero if it has
none (`Storage.Holds.exists_get`).
-/

namespace Semidefinite

open Storage

variable {K : Type} [Scalar K] {S : Type → Type} [Storage S]

namespace Write

/-- The entries that are not zero, each written into a fresh cell. -/
def ofEntries (entries : List (Cell × K)) : List (Write K) :=
  (entries.filter fun p => p.2 != 0).map fun p => ⟨p.1, p.2, true⟩

theorem mem_ofEntries {entries : List (Cell × K)} {w : Write K} :
    w ∈ ofEntries entries ↔
      (w.cell, w.value) ∈ entries ∧ (w.value == 0) = false ∧ w.fresh = true := by
  unfold ofEntries
  rw [List.mem_map]
  constructor
  · rintro ⟨p, hp, rfl⟩
    obtain ⟨hp, hvalue⟩ := List.mem_filter.1 hp
    exact ⟨hp, by simpa [bne] using hvalue, rfl⟩
  · rintro ⟨hentry, hvalue, hfresh⟩
    refine ⟨(w.cell, w.value), List.mem_filter.2 ⟨hentry, by simp [bne, hvalue]⟩, ?_⟩
    rw [← hfresh]

theorem nodup_ofEntries {entries : List (Cell × K)} (h : (entries.map Prod.fst).Nodup) :
    ((ofEntries entries).map cell).Nodup := by
  unfold ofEntries
  rw [List.map_map]
  exact h.sublist (List.filter_sublist.map _)

theorem admissible_ofEntries {rows cols : Nat} {entries : List (Cell × K)}
    (hnodup : (entries.map Prod.fst).Nodup)
    (hinside : ∀ p ∈ entries, p.1.row < rows ∧ p.1.col < cols) :
    Admissible rows cols (ofEntries entries) := by
  refine ⟨fun w hw => hinside _ (mem_ofEntries.1 hw).1, ?_⟩
  refine (List.pairwise_map.1 (nodup_ofEntries hnodup)).imp ?_
  exact fun hne _ => hne

omit [Scalar K] in
theorem last?_of_mem {writes : List (Write K)} (hnodup : (writes.map cell).Nodup)
    {w : Write K} (hw : w ∈ writes) : last? writes w.cell = some w.value := by
  unfold last?
  cases hfind : writes.reverse.find? fun w' => w'.cell == w.cell with
  | none =>
    have hno := List.find?_eq_none.1 hfind w (List.mem_reverse.2 hw)
    simp at hno
  | some w' =>
    have hcell : w'.cell = w.cell := by simpa using List.find?_some hfind
    have hmem : w' ∈ writes := List.mem_reverse.1 (List.mem_of_find?_eq_some hfind)
    rw [List.inj_on_of_nodup_map hnodup hmem hw hcell]
    rfl

/-- An entry is read back from the writes, and so is zero in a cell that has no entry. -/
theorem alike_last?_ofEntries [LawfulZero K] {entries : List (Cell × K)}
    (hnodup : (entries.map Prod.fst).Nodup) {c : Cell} {v : K}
    (h : (c, v) ∈ entries ∨ c ∉ entries.map Prod.fst ∧ (v == 0) = true) :
    Alike ((last? (ofEntries entries) c).getD 0) v := by
  by_cases hv : (v == 0) = true
  · -- no entry in the cell is other than zero, so none is written
    have hnone : last? (ofEntries entries) c = none := by
      refine last?_eq_none fun w hw hcell => ?_
      obtain ⟨hentry, hvalue, -⟩ := mem_ofEntries.1 hw
      rw [hcell] at hentry
      rcases h with hmem | ⟨hnew, -⟩
      · have hsame := List.inj_on_of_nodup_map hnodup hentry hmem rfl
        rw [(Prod.mk.inj hsame).2, hv] at hvalue
        cases hvalue
      · exact hnew (List.mem_map_of_mem hentry)
    rw [hnone]
    exact .inr ⟨LawfulZero.zero_beq, hv⟩
  · have hmem : (c, v) ∈ entries := h.resolve_right fun hzero => hv hzero.2
    have hw : (⟨c, v, true⟩ : Write K) ∈ ofEntries entries :=
      mem_ofEntries.2 ⟨hmem, by simpa using hv, rfl⟩
    rw [last?_of_mem (nodup_ofEntries hnodup) hw]
    exact .inl rfl

end Write

namespace Storage

theorem ofEntries_eq_run (rows cols : Nat) (entries : List (Cell × K)) :
    (ofEntries rows cols entries : Except Fault (S K)) =
      Write.run S rows cols (Write.ofEntries entries) := by
  unfold Write.run Write.ofEntries
  rw [List.foldlM_map]
  rfl

section Faithful
variable [FaithfulStorage S K] {rows cols : Nat} {entries : List (Cell × K)}

theorem exists_ofEntries (h : Write.Admissible rows cols (Write.ofEntries entries)) :
    ∃ m : S K, ofEntries rows cols entries = .ok m := by
  obtain ⟨m, hm, -⟩ := Write.exists_run (S := S) h
  exact ⟨m, (ofEntries_eq_run rows cols entries).trans hm⟩

theorem holds_of_ofEntries (h : Write.Admissible rows cols (Write.ofEntries entries)) {m : S K}
    (hm : ofEntries rows cols entries = .ok m) : Holds m rows cols (Write.ofEntries entries) := by
  obtain ⟨m', hm', hholds⟩ := Write.exists_run (S := S) h
  rw [ofEntries_eq_run, hm'] at hm
  cases hm
  exact hholds

/-- A cell of a matrix filled with entries reads its entry, and zero if it has none. -/
theorem Holds.exists_get [LawfulZero K] {m : S K}
    (h : Holds m rows cols (Write.ofEntries entries)) (hnodup : (entries.map Prod.fst).Nodup)
    {c : Cell} (hrow : c.row < rows) (hcol : c.col < cols) {v : K}
    (hv : (c, v) ∈ entries ∨ c ∉ entries.map Prod.fst ∧ (v == 0) = true) :
    ∃ u, get m c.row c.col = .ok u ∧ Alike u v := by
  obtain ⟨u, hu, halike⟩ := h.reads.get c hrow hcol
  exact ⟨u, hu, halike.trans (Write.alike_last?_ofEntries hnodup hv)⟩

end Faithful

end Storage

/-! ## Parts of forms -/

namespace LinearForm

omit [Scalar K]

/-- One part of each form, in its cell. -/
def parts (forms : List (Cell × LinearForm K)) (part : LinearForm K → Option K) :
    List (Cell × K) :=
  forms.filterMap fun p => (part p.2).map (p.1, ·)

variable {forms : List (Cell × LinearForm K)} {part : LinearForm K → Option K}

theorem mem_parts {p : Cell × K} :
    p ∈ parts forms part ↔ ∃ form, (p.1, form) ∈ forms ∧ part form = some p.2 := by
  unfold parts
  rw [List.mem_filterMap]
  constructor
  · rintro ⟨⟨c, form⟩, hform, hp⟩
    obtain ⟨v, hv, rfl⟩ := Option.map_eq_some_iff.1 hp
    exact ⟨form, hform, hv⟩
  · rintro ⟨form, hform, hp⟩
    exact ⟨(p.1, form), hform, Option.map_eq_some_iff.2 ⟨p.2, hp, rfl⟩⟩

theorem parts_constant (forms : List (Cell × LinearForm K)) :
    parts forms (fun form => some form.constant) = forms.map fun p => (p.1, p.2.constant) :=
  congrFun (List.filterMap_eq_map (f := fun p : Cell × LinearForm K => (p.1, p.2.constant))) forms

theorem nodup_parts (h : (forms.map Prod.fst).Nodup) (part : LinearForm K → Option K) :
    ((parts forms part).map Prod.fst).Nodup := by
  refine List.pairwise_map.2 ((List.pairwise_map.1 h).filterMap _ fun p q hpq a ha b hb => ?_)
  obtain ⟨v, -, rfl⟩ := Option.map_eq_some_iff.1 ha
  obtain ⟨w, -, rfl⟩ := Option.map_eq_some_iff.1 hb
  exact hpq

end LinearForm

theorem Write.admissible_parts {forms : List (Cell × LinearForm K)} {rows cols : Nat}
    (hnodup : (forms.map Prod.fst).Nodup)
    (hinside : ∀ p ∈ forms, p.1.row < rows ∧ p.1.col < cols) (part : LinearForm K → Option K) :
    Admissible rows cols (ofEntries (LinearForm.parts forms part)) := by
  refine admissible_ofEntries (LinearForm.nodup_parts hnodup part) fun p hp => ?_
  obtain ⟨form, hform, -⟩ := LinearForm.mem_parts.1 hp
  exact hinside _ hform

end Semidefinite
