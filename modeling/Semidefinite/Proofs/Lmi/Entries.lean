import Semidefinite.Proofs.Blocks

/-!
# Entries of blocks

Canonical matrices and their blocks are built from the entries of the sides by
negation and subtraction, with zeros in between. So what holds of the entries of
the sides and is kept by these (`Expr.KeptByDifference`) holds of all entries of the
blocks (`Lmi.allEntries_canonicalMatrix`, `allEntries_canonicalBlocks`).
-/

namespace Semidefinite

variable {K : Type}

/-- The property holds of zero, and of negations and differences of what it holds of. -/
structure Expr.KeptByDifference [Scalar K] (P : Expr K → Prop) : Prop where
  zero : P Expr.zero
  negate : ∀ {e}, P e → P e.negate
  sub : ∀ {a b}, P a → P b → P (a - b)

def SymMatrix.AllEntries (P : Expr K → Prop) (m : SymMatrix K) : Prop :=
  ∀ i j e, Grid.entry? m i j = some e → P e

def BlockMatrix.AllEntries (P : Expr K → Prop) (m : BlockMatrix K) : Prop :=
  ∀ p ∈ m.parts, SymMatrix.AllEntries P p

variable [Scalar K] {P : Expr K → Prop}

namespace SymMatrix

variable {m n : SymMatrix K}

theorem AllEntries.getD (hzero : P Expr.zero) (h : m.AllEntries P) (i j : Nat) :
    P ((Grid.entry? m i j).getD Expr.zero) := by
  cases he : Grid.entry? m i j with
  | none => exact hzero
  | some e => exact h i j e he

theorem AllEntries.negate (hP : Expr.KeptByDifference P) (h : m.AllEntries P) :
    (negate m).AllEntries P := by
  intro i j e he
  have hmap := Grid.entry?_map Expr.negate m i j
  obtain ⟨a, ha, rfl⟩ := Option.map_eq_some_iff.1 (hmap.symm.trans he)
  exact hP.negate (h i j a ha)

/-- The zeros between blocks count as entries. -/
theorem allEntries_blockDiagonal (hzero : P Expr.zero) {parts : List (SymMatrix K)}
    (h : ∀ p ∈ parts, SymMatrix.AllEntries P p) : (blockDiagonal parts).AllEntries P := by
  intro i j e he
  rw [blockDiagonal, Grid.entry?_blockDiagonal _ _ (Grid.lt_of_entry?_eq_some he)] at he
  cases hcell : Grid.diagonalCell? parts i j with
  | none =>
    rw [hcell] at he
    cases he
    exact hzero
  | some a =>
    rw [hcell] at he
    cases he
    obtain ⟨m, hm, r, c, hentry⟩ := Grid.exists_diagonalCell?_iff.1 ⟨i, j, hcell⟩
    exact h m hm r c a hentry

theorem AllEntries.cutAt (hzero : P Expr.zero) (h : m.AllEntries P) {b : SymMatrix K}
    {start : Nat} {ends : List Nat} (hb : b ∈ Grid.cutAt Expr.zero m start ends) :
    b.AllEntries P := by
  induction ends generalizing start with
  | nil => cases hb
  | cons stop rest ih =>
    unfold Grid.cutAt at hb
    rcases List.mem_cons.1 hb with rfl | hb
    · intro i j e he
      obtain ⟨_, rfl⟩ := Grid.entry?_tabulate_eq_some he
      exact h.getD hzero _ _
    · exact ih hb

theorem AllEntries.splitBlocks (hzero : P Expr.zero) (h : m.AllEntries P)
    {blocks : List (SymMatrix K)} (hsplit : m.splitBlocks = .ok blocks) {b : SymMatrix K}
    (hb : b ∈ blocks) : b.AllEntries P := by
  obtain ⟨ends, -, rfl⟩ := Except.map_eq_ok.1 hsplit
  exact h.cutAt hzero hb

end SymMatrix

namespace BlockMatrix

theorem entry?_entrywiseDifference {m n d : SymMatrix K} (h : entrywiseDifference m n = .ok d) :
    d.rows = m.rows ∧ d.cols = m.cols ∧
      ∀ i j a, m.entry? i j = some a →
        d.entry? i j = some (a - (n.entry? i j).getD Expr.zero) := by
  unfold entrywiseDifference at h
  rw [Except.bind_eq_ok] at h
  obtain ⟨covered, hcovered, h⟩ := h
  cases h
  unfold SymMatrix.submatrix at hcovered
  rw [Except.mapError_eq_ok] at hcovered
  obtain ⟨-, -, hread⟩ := Grid.window_eq_ok hcovered
  refine ⟨rfl, rfl, fun i j a ha => ?_⟩
  have hin := Grid.lt_of_entry?_eq_some ha
  have hcell := hread i j (by omega) (by omega)
  rw [Nat.zero_add, Nat.zero_add] at hcell
  rw [m.entry?_eq_some hin] at ha
  cases ha
  rw [Grid.entry?_tabulate _ hin, hcell]

theorem difference_cases {left right d : BlockMatrix K} (h : left.difference right = .ok d) :
    (∃ ms ns ds, left = blocks ms ∧ right = blocks ns ∧ d = blocks ds ∧
      ms.map Grid.shape = ns.map Grid.shape ∧
      (ms.zip ns).mapM (fun (m, n) => entrywiseDifference m n) = .ok ds) ∨
    ∃ m, d = whole m ∧ entrywiseDifference left.toDense right.toDense = .ok m := by
  rcases difference_split left right with ⟨ms, ns, rfl, rfl, hlayout, hd⟩ | ⟨-, hd⟩
  · rw [hd] at h
    obtain ⟨ds, hds, rfl⟩ := Except.map_eq_ok.1 h
    exact .inl ⟨ms, ns, ds, rfl, rfl, rfl, hlayout, hds⟩
  · rw [hd, denseDifference] at h
    obtain ⟨m, hm, h⟩ := Except.bind_eq_ok.1 h
    obtain ⟨n, hn, h⟩ := Except.bind_eq_ok.1 h
    obtain ⟨-, rfl⟩ := toDense?_eq_ok_iff.1 hm
    obtain ⟨-, rfl⟩ := toDense?_eq_ok_iff.1 hn
    obtain ⟨d, hd, rfl⟩ := Except.map_eq_ok.1 h
    exact .inr ⟨d, rfl, hd⟩

omit [Scalar K] in
theorem allEntries_whole {m : SymMatrix K} : (whole m).AllEntries P ↔ m.AllEntries P :=
  List.forall_mem_singleton

variable {m : BlockMatrix K}

theorem AllEntries.toDense (hzero : P Expr.zero) (h : m.AllEntries P) :
    SymMatrix.AllEntries P m.toDense := by
  cases m with
  | whole m => exact allEntries_whole.1 h
  | blocks parts => exact SymMatrix.allEntries_blockDiagonal hzero h

theorem AllEntries.negate (hP : Expr.KeptByDifference P) (h : m.AllEntries P) :
    m.negate.AllEntries P := by
  cases m with
  | whole m => exact allEntries_whole.2 ((allEntries_whole.1 h).negate hP)
  | blocks parts =>
    intro p hp
    obtain ⟨q, hq, rfl⟩ := List.mem_map.1 hp
    exact (h q hq).negate hP

theorem allEntries_entrywiseDifference (hP : Expr.KeptByDifference P) {m n d : SymMatrix K}
    (hm : m.AllEntries P) (hn : n.AllEntries P) (hd : entrywiseDifference m n = .ok d) :
    d.AllEntries P := by
  obtain ⟨hrows, hcols, hentry⟩ := entry?_entrywiseDifference hd
  intro i j e he
  have hin := Grid.lt_of_entry?_eq_some he
  rw [hrows, hcols] at hin
  have hread := m.entry?_eq_some hin
  rw [hentry i j _ hread] at he
  cases he
  exact hP.sub (hm i j _ hread) (hn.getD hP.zero i j)

theorem allEntries_difference (hP : Expr.KeptByDifference P) {left right d : BlockMatrix K}
    (hleft : left.AllEntries P) (hright : right.AllEntries P)
    (hd : left.difference right = .ok d) : d.AllEntries P := by
  rcases difference_cases hd with ⟨ms, ns, ds, rfl, rfl, rfl, -, hds⟩ | ⟨m, rfl, hm⟩
  · intro p hp
    obtain ⟨⟨m, n⟩, hmn, hdiff⟩ := exists_of_mem_right (Except.forall₂_of_mapM_eq_ok hds) hp
    obtain ⟨hm, hn⟩ := List.of_mem_zip hmn
    exact allEntries_entrywiseDifference hP (hleft m hm) (hright n hn) hdiff
  · exact allEntries_whole.2 (allEntries_entrywiseDifference hP (hleft.toDense hP.zero)
      (hright.toDense hP.zero) hm)

theorem AllEntries.cut (hzero : P Expr.zero) (h : m.AllEntries P) {cutting : Cutting}
    {own : List (SymMatrix K)} (hcut : m.cut cutting = .ok own) :
    ∀ b ∈ own, SymMatrix.AllEntries P b := by
  rcases cut_cases hcut with rfl | rfl | ⟨w, rfl, hsplit⟩ | ⟨parts, lists, rfl, rfl, hlists⟩
  · exact List.forall_mem_singleton.2 (h.toDense hzero)
  · exact h
  · exact fun b hb => (allEntries_whole.1 h).splitBlocks hzero hsplit hb
  · intro b hb
    obtain ⟨list, hlist, hb⟩ := List.mem_flatten.1 hb
    obtain ⟨w, hw, hsplit⟩ := exists_of_mem_right (Except.forall₂_of_mapM_eq_ok hlists) hlist
    exact (h w hw).splitBlocks hzero hsplit hb

end BlockMatrix

theorem Lmi.allEntries_canonicalMatrix (hP : Expr.KeptByDifference P) {l : Lmi K}
    (h : ∀ s, l.IsSide s → s.AllEntries P) {m : BlockMatrix K} (hm : l.canonicalMatrix = .ok m) :
    m.AllEntries P := by
  simp only [isSide_iff] at h
  unfold canonicalMatrix at hm
  split at hm
  · rename_i a b ha hb
    exact BlockMatrix.allEntries_difference hP (h a (.inl ha)) (h b (.inr hb)) hm
  · rename_i a ha hb
    cases hm
    exact h _ (.inl ha)
  · rename_i b ha hb
    cases hm
    exact (h b (.inr hb)).negate hP
  · cases hm

theorem allEntries_canonicalBlocks (hP : Expr.KeptByDifference P) {lmis : List (Lmi K)}
    (h : ∀ l ∈ lmis, ∀ s, l.IsSide s → s.AllEntries P) {cutting : Cutting}
    {blocks : List (SymMatrix K)} (hblocks : canonicalBlocks lmis cutting = .ok blocks) :
    ∀ b ∈ blocks, SymMatrix.AllEntries P b := by
  obtain ⟨lists, hlists, rfl⟩ := Except.map_eq_ok.1 hblocks
  intro b hb
  obtain ⟨list, hlist, hb⟩ := List.mem_flatten.1 hb
  obtain ⟨l, hl, hown⟩ := exists_of_mem_right (Except.forall₂_of_mapM_eq_ok hlists) hlist
  obtain ⟨m, hm, hcut⟩ := Lmi.canonicalBlocks_eq_ok hown
  exact (Lmi.allEntries_canonicalMatrix hP (h l hl) hm).cut hP.zero hcut b hb

end Semidefinite
