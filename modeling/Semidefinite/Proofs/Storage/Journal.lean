import Semidefinite.Proofs.Lowering
import Semidefinite.Proofs.Storage.Backends
import Semidefinite.Proofs.Storage.Entries

/-!
# Journals of writes

A journal is a storage that keeps the writes themselves, so what a computation
writes is seen by running it on journals. A matrix is written once
(`Storage.WrittenOnce`) if its journal has no cell twice and, carried out, makes
the matrix. Matrices filled with entries in distinct cells are
(`Storage.writtenOnce_of_ofEntries`), and so are the pencils made of forms.
-/

namespace Semidefinite

open Storage

variable {K : Type}

/-- A matrix kept as the writes that make it, first to last. -/
structure Journal (K : Type) where
  rows : Nat
  cols : Nat
  writes : List (Write K)

namespace Journal

def note (j : Journal K) (w : Write K) : Journal K :=
  { j with writes := j.writes ++ [w] }

variable [Scalar K]

def valueAt (j : Journal K) (c : Cell) : K :=
  (Write.last? j.writes c).getD 0

instance : Storage Journal where
  zeros rows cols := ⟨rows, cols, []⟩
  shape j := (j.rows, j.cols)
  set j row col v := .ok (j.note ⟨⟨row, col⟩, v, false⟩)
  setFresh j row col v := .ok (j.note ⟨⟨row, col⟩, v, true⟩)
  get j row col := .ok (j.valueAt ⟨row, col⟩)
  nonzeros j := (Write.nonzeroCells j.rows j.cols j.writes).map fun c => (c, j.valueAt c)
  toDense j := Grid.tabulate j.rows j.cols fun row col => j.valueAt ⟨row, col⟩

theorem apply_eq (j : Journal K) (w : Write K) : w.apply j = .ok (j.note w) := by
  obtain ⟨c, v, fresh⟩ := w
  cases fresh <;> rfl

theorem foldlM_apply (j : Journal K) (writes : List (Write K)) :
    writes.foldlM Write.apply j = .ok { j with writes := j.writes ++ writes } := by
  induction writes generalizing j with
  | nil => rw [List.append_nil]; rfl
  | cons w rest ih =>
    rw [List.foldlM_cons, apply_eq]
    show rest.foldlM Write.apply (j.note w) = _
    rw [ih, note, List.append_assoc, List.singleton_append]

theorem run_eq (rows cols : Nat) (writes : List (Write K)) :
    Write.run Journal rows cols writes = .ok ⟨rows, cols, writes⟩ :=
  foldlM_apply ⟨rows, cols, []⟩ writes

theorem ofEntries_eq (rows cols : Nat) (entries : List (Cell × K)) :
    (Storage.ofEntries rows cols entries : Except Fault (Journal K)) =
      .ok ⟨rows, cols, Write.ofEntries entries⟩ :=
  (ofEntries_eq_run rows cols entries).trans (run_eq rows cols _)

end Journal

/-! ## Cells written once -/

variable [Scalar K] {S : Type → Type} [Storage S]

/-- The writes in a journal make the matrix, and no two of them go into one cell. -/
structure Storage.WrittenOnce (m : S K) (j : Journal K) : Prop where
  once : (j.writes.map Write.cell).Nodup
  made : Write.run S j.rows j.cols j.writes = .ok m

theorem Storage.writtenOnce_of_ofEntries {rows cols : Nat} {entries : List (Cell × K)}
    (hnodup : (entries.map Prod.fst).Nodup) {m : S K} (h : ofEntries rows cols entries = .ok m) :
    ∃ j : Journal K, ofEntries rows cols entries = .ok j ∧ WrittenOnce m j := by
  rw [ofEntries_eq_run] at h
  exact ⟨_, Journal.ofEntries_eq rows cols entries, Write.nodup_ofEntries hnodup, h⟩

namespace Pencil

/-- The constant and the coefficients are written once each. -/
structure WrittenOnce (p : Pencil S K) (journal : Pencil Journal K) : Prop where
  constant : Storage.WrittenOnce p.constant journal.constant
  coefficients : List.Forall₂ Storage.WrittenOnce p.coefficients journal.coefficients

theorem writtenOnce_of_ofForms {size : Nat × Nat} {n : Nat} {forms : List (Cell × LinearForm K)}
    (hnodup : (forms.map Prod.fst).Nodup) {p : Pencil S K} (h : ofForms size n forms = .ok p) :
    ∃ journal : Pencil Journal K, ofForms size n forms = .ok journal ∧ p.WrittenOnce journal := by
  unfold ofForms at h
  obtain ⟨constant, hconstant, h⟩ := Except.bind_eq_ok.1 h
  obtain ⟨coefficients, hcoefficients, h⟩ := Except.bind_eq_ok.1 h
  cases h
  have hpart : ∀ (part : LinearForm K → Option K) (m : S K),
      ofEntries size.1 size.2 (LinearForm.parts forms part) = .ok m →
      ∃ j : Journal K, ofEntries size.1 size.2 (LinearForm.parts forms part) = .ok j ∧
        Storage.WrittenOnce m j :=
    fun part _ => writtenOnce_of_ofEntries (LinearForm.nodup_parts hnodup part)
  rw [← LinearForm.parts_constant] at hconstant
  obtain ⟨j, hj, hmade⟩ := hpart _ _ hconstant
  rw [LinearForm.parts_constant] at hj
  obtain ⟨ms, js, hms, hjs, hparts⟩ := Except.exists_mapM_forall₂ (R := Storage.WrittenOnce)
    fun k hk => by
      obtain ⟨m, hm⟩ := Except.exists_mapM_iff.1 ⟨coefficients, hcoefficients⟩ k hk
      obtain ⟨j, hj, hmade⟩ := hpart (·.coefficient? k) m hm
      exact ⟨m, j, hm, hj, hmade⟩
  rw [hcoefficients] at hms
  cases hms
  refine ⟨⟨js, j⟩, ?_, hmade, hparts⟩
  unfold ofForms
  exact Except.bind_eq_ok.2 ⟨j, hj, Except.bind_eq_ok.2 ⟨js, hjs, rfl⟩⟩

end Pencil

end Semidefinite
