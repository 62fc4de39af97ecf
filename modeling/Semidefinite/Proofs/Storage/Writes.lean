import Semidefinite.Proofs.Grid
import Semidefinite.Proofs.Expr.Zero
import Semidefinite.Proofs.Tally
import Semidefinite.Storage.Basic

/-!
# What a storage keeps after writes

`Storage.kept` is the view of a storage: the values that are not zero, by cell. A
storage is faithful (`FaithfulStorage`) if each write changes the view in its own
cell only, and if reading follows the view. After any admissible sequence of
writes a faithful storage keeps the value last written into each cell
(`exists_run`), so what it reads does not depend on how it keeps it
(`Holds.reads`).
-/

namespace Semidefinite

open Storage

variable {K : Type}

/-! ## Sequences of writes -/

/-- A value put into a cell: over whatever the cell holds or, if the write is fresh, into a cell
that was not written before. -/
structure Write (K : Type) where
  cell : Cell
  value : K
  fresh : Bool

namespace Write

def last? (writes : List (Write K)) (c : Cell) : Option K :=
  (writes.reverse.find? fun w => w.cell == c).map value

theorem last?_append_singleton (writes : List (Write K)) (w : Write K) (c : Cell) :
    last? (writes ++ [w]) c = if c = w.cell then some w.value else last? writes c := by
  unfold last?
  rw [List.reverse_append, List.reverse_singleton, List.singleton_append]
  by_cases h : c = w.cell
  · rw [if_pos h, List.find?_cons_of_pos (by simp [h])]
    rfl
  · rw [if_neg h, List.find?_cons_of_neg (by simpa using Ne.symm h)]

theorem last?_eq_none {writes : List (Write K)} {c : Cell} (h : ∀ w ∈ writes, w.cell ≠ c) :
    last? writes c = none := by
  unfold last?
  rw [Option.map_eq_none_iff, List.find?_eq_none]
  intro w hw
  simpa using h w (List.mem_reverse.1 hw)

/-- All writes go into the matrix, and a fresh write is the first one into its cell. -/
structure Admissible (rows cols : Nat) (writes : List (Write K)) : Prop where
  inside : ∀ w ∈ writes, w.cell.row < rows ∧ w.cell.col < cols
  fresh : writes.Pairwise fun earlier later => later.fresh = true → earlier.cell ≠ later.cell

theorem Admissible.of_prefix {rows cols : Nat} {done writes : List (Write K)}
    (h : Admissible rows cols writes) (hdone : done <+: writes) : Admissible rows cols done :=
  ⟨fun w hw => h.inside w (hdone.subset hw), h.fresh.sublist hdone.sublist⟩

section Run
variable [Scalar K]

def apply {S : Type → Type} [Storage S] (m : S K) (w : Write K) : Except Fault (S K) :=
  if w.fresh then setFresh m w.cell.row w.cell.col w.value
  else set m w.cell.row w.cell.col w.value

/-- The matrix that a sequence of writes makes out of zeros. -/
def run (S : Type → Type) [Storage S] (rows cols : Nat) (writes : List (Write K)) :
    Except Fault (S K) :=
  writes.foldlM apply (zeros rows cols)

end Run

end Write

/-! ## Faithful storages -/

theorem Tally.Ascending.rowMajor {t : Tally Cell K} (h : t.Ascending) :
    (t.entries.map Prod.fst).Pairwise Cell.Precedes :=
  List.pairwise_map.2 (h.imp Cell.compare_eq_lt.1)

variable [Scalar K]

section View
variable {S : Type → Type} [Storage S]

/-- The values other than zero, by cell. -/
def Storage.kept (m : S K) : Tally Cell K :=
  ⟨nonzeros m⟩

def Storage.Inside (m : S K) (c : Cell) : Prop :=
  c.row < (shape m).1 ∧ c.col < (shape m).2

/-- `m'` differs from `m` in the cell `c`: there it keeps `v`, or nothing if `v` equals zero. -/
structure Storage.Written (m m' : S K) (c : Cell) (v : K) : Prop where
  shape : Storage.shape m' = Storage.shape m
  kept : ∀ c' u, (c', u) ∈ (kept m').entries ↔
    if c' = c then u = v ∧ (v == 0) = false else (c', u) ∈ (Storage.kept m).entries

end View

theorem Storage.value_of_get {S : Type → Type} [Storage S] {m : S K} {i j : Nat} {v : K}
    (h : get m i j = .ok v) : value m i j = v := by
  rw [value, h]

/-- One value or two zeros, which may differ in sign. -/
def Alike (u v : K) : Prop :=
  u = v ∨ (u == 0) = true ∧ (v == 0) = true

/-- Writes change what is kept in their own cell, and reading follows what is kept. `Valid` is what
the storage makes sure of in its own form. -/
class FaithfulStorage (S : Type → Type) [Storage S] (K : Type) [Scalar K] where
  Valid : S K → Prop
  valid_zeros (rows cols : Nat) : Valid (zeros rows cols)
  shape_zeros (rows cols : Nat) : shape (zeros rows cols : S K) = (rows, cols)
  kept_zeros (rows cols : Nat) : (kept (zeros rows cols : S K)).entries = []
  exists_set {m : S K} {c : Cell} (v : K) : Valid m → Inside m c →
    ∃ m', set m c.row c.col v = .ok m' ∧ Valid m' ∧ Written m m' c v
  exists_setFresh {m : S K} {c : Cell} (v : K) : Valid m → Inside m c → c ∉ (kept m).keys →
    ∃ m', setFresh m c.row c.col v = .ok m' ∧ Valid m' ∧ Written m m' c v
  ascending {m : S K} : Valid m → (kept m).Ascending
  exists_get {m : S K} {c : Cell} : Valid m → Inside m c →
    ∃ u, get m c.row c.col = .ok u ∧ Alike u ((kept m).total c)
  shape_toDense {m : S K} : Valid m → (toDense m).shape = shape m
  exists_entry {m : S K} {c : Cell} : Valid m → Inside m c →
    ∃ u, Grid.entry? (toDense m) c.row c.col = some u ∧ Alike u ((kept m).total c)

section Faithful
variable {S : Type → Type} [Storage S] [FaithfulStorage S K] {rows cols : Nat}

/-- The storage has the shape and keeps the values last written that are not zero. -/
structure Storage.Holds (m : S K) (rows cols : Nat) (writes : List (Write K)) : Prop where
  valid : FaithfulStorage.Valid m
  shape : Storage.shape m = (rows, cols)
  kept : ∀ c v, (c, v) ∈ (kept m).entries ↔ Write.last? writes c = some v ∧ (v == 0) = false

theorem Storage.Holds.not_mem_keys {m : S K} {writes : List (Write K)}
    (h : Holds m rows cols writes) {c : Cell} (hc : ∀ w ∈ writes, w.cell ≠ c) : c ∉ (Storage.kept m).keys := by
  intro hmem
  obtain ⟨⟨c', v⟩, hp, rfl⟩ := List.mem_map.1 hmem
  obtain ⟨hlast, -⟩ := (h.kept c' v).1 hp
  rw [Write.last?_eq_none hc] at hlast
  cases hlast

theorem Storage.Holds.append {m m' : S K} {writes : List (Write K)} {w : Write K}
    (h : Holds m rows cols writes) (hvalid : FaithfulStorage.Valid m')
    (hwritten : Written m m' w.cell w.value) : Holds m' rows cols (writes ++ [w]) := by
  refine ⟨hvalid, hwritten.shape.trans h.shape, fun c v => ?_⟩
  rw [hwritten.kept, Write.last?_append_singleton]
  by_cases hc : c = w.cell
  · rw [if_pos hc, if_pos hc]
    constructor
    · rintro ⟨rfl, hv⟩
      exact ⟨rfl, hv⟩
    · rintro ⟨hv, hzero⟩
      cases hv
      exact ⟨rfl, hzero⟩
  · rw [if_neg hc, if_neg hc]
    exact h.kept c v

theorem Storage.Holds.exists_apply {m : S K} {writes : List (Write K)} {w : Write K}
    (h : Holds m rows cols writes) (hw : Write.Admissible rows cols (writes ++ [w])) :
    ∃ m', w.apply m = .ok m' ∧ Holds m' rows cols (writes ++ [w]) := by
  have hinside : Inside m w.cell := by
    unfold Inside
    rw [h.shape]
    exact hw.inside w (List.mem_append_right _ List.mem_cons_self)
  unfold Write.apply
  cases hfresh : w.fresh with
  | false =>
    obtain ⟨m', hset, hvalid, hwritten⟩ := FaithfulStorage.exists_set w.value h.valid hinside
    exact ⟨m', hset, h.append hvalid hwritten⟩
  | true =>
    have hearlier : ∀ e ∈ writes, e.cell ≠ w.cell := fun e he =>
      (List.pairwise_append.1 hw.fresh).2.2 e he w List.mem_cons_self hfresh
    obtain ⟨m', hset, hvalid, hwritten⟩ :=
      FaithfulStorage.exists_setFresh w.value h.valid hinside (h.not_mem_keys hearlier)
    exact ⟨m', hset, h.append hvalid hwritten⟩

/-- An admissible sequence of writes succeeds, and the matrix keeps what was written last. -/
theorem Write.exists_run {writes : List (Write K)} (h : Admissible rows cols writes) :
    ∃ m : S K, run S rows cols writes = .ok m ∧ Holds m rows cols writes := by
  induction writes using List.reverseRecOn with
  | nil =>
    refine ⟨zeros rows cols, rfl, FaithfulStorage.valid_zeros rows cols,
      FaithfulStorage.shape_zeros rows cols, fun c v => ?_⟩
    rw [FaithfulStorage.kept_zeros]
    simp [last?]
  | append_singleton writes w ih =>
    obtain ⟨m, hrun, hholds⟩ := ih (h.of_prefix (List.prefix_append _ _))
    obtain ⟨m', happly, hholds'⟩ := hholds.exists_apply h
    refine ⟨m', ?_, hholds'⟩
    unfold run at hrun ⊢
    rw [List.foldlM_append, hrun]
    show List.foldlM Write.apply m [w] = _
    rw [List.foldlM_cons, happly]
    rfl

/-! ## Reading -/

theorem Alike.trans {u v w : K} (huv : Alike u v) (hvw : Alike v w) : Alike u w := by
  rcases huv with rfl | ⟨hu, hv⟩
  · exact hvw
  · rcases hvw with rfl | ⟨-, hw⟩
    · exact .inr ⟨hu, hv⟩
    · exact .inr ⟨hu, hw⟩

/-- What a matrix reads after writes: the value last written into a cell, zero if there is none;
the zeros may have either sign. Exactly the cells whose value is not zero are listed, row after
row. -/
structure Storage.Reads (m : S K) (rows cols : Nat) (writes : List (Write K)) : Prop where
  shape : Storage.shape m = (rows, cols)
  get : ∀ c : Cell, c.row < rows → c.col < cols →
    ∃ u, Storage.get m c.row c.col = .ok u ∧ Alike u ((Write.last? writes c).getD 0)
  nonzeros : ∀ c v, (c, v) ∈ nonzeros m ↔ Write.last? writes c = some v ∧ (v == 0) = false
  rowMajor : ((Storage.nonzeros m).map Prod.fst).Pairwise Cell.Precedes
  shape_toDense : (toDense m).shape = (rows, cols)
  entry : ∀ c : Cell, c.row < rows → c.col < cols →
    ∃ u, Grid.entry? (toDense m) c.row c.col = some u ∧ Alike u ((Write.last? writes c).getD 0)

section Reads
variable [LawfulZero K] {m : S K} {writes : List (Write K)}

theorem Storage.Holds.alike_total (h : Holds m rows cols writes) (c : Cell) :
    Alike ((Storage.kept m).total c) ((Write.last? writes c).getD 0) := by
  by_cases hc : c ∈ (Storage.kept m).keys
  · obtain ⟨⟨c, v⟩, hp, rfl⟩ := List.mem_map.1 hc
    rw [((h.kept c v).1 hp).1]
    exact .inl (Tally.total_of_mem (FaithfulStorage.ascending h.valid) hp)
  · rw [Tally.total_of_not_mem hc]
    refine .inr ⟨LawfulZero.zero_beq, ?_⟩
    cases hlast : Write.last? writes c with
    | none => exact LawfulZero.zero_beq
    | some v =>
      by_contra hv
      exact hc (List.mem_map_of_mem ((h.kept c v).2 ⟨hlast, by simpa using hv⟩))

/-- Reading follows what is kept. -/
theorem Storage.Holds.reads (h : Holds m rows cols writes) : Reads m rows cols writes := by
  have hinside : ∀ c : Cell, c.row < rows → c.col < cols → Inside m c := by
    intro c hrow hcol
    unfold Inside
    rw [h.shape]
    exact ⟨hrow, hcol⟩
  refine ⟨h.shape, fun c hrow hcol => ?_, h.kept,
    (FaithfulStorage.ascending h.valid).rowMajor,
    (FaithfulStorage.shape_toDense h.valid).trans h.shape, fun c hrow hcol => ?_⟩
  · obtain ⟨u, hu, halike⟩ := FaithfulStorage.exists_get h.valid (hinside c hrow hcol)
    exact ⟨u, hu, halike.trans (h.alike_total c)⟩
  · obtain ⟨u, hu, halike⟩ := FaithfulStorage.exists_entry h.valid (hinside c hrow hcol)
    exact ⟨u, hu, halike.trans (h.alike_total c)⟩

end Reads

end Faithful

end Semidefinite
