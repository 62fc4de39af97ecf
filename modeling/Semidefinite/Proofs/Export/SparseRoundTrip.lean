import Semidefinite.Proofs.Export.Entries
import Semidefinite.Proofs.Export.LineReader

/-!
# Sparse files are read back

`SparseFile.reader` takes a sparse file apart: the header, then one entry per line.
`SparseFile.matrix` starts from zeros and puts in each entry of one matrix and block,
together with its mirror image. Of a symmetric problem that is what the problem has
(`read_renderSparse`): a cell is covered by an entry exactly if it reads another
number than zero.
-/

namespace Semidefinite

open Storage LineReader Text

variable {K : Type} [Scalar K]

/-- An `n × n` grid of the numbers `f i j`, whose zeros may have either sign. -/
def Grid.Shows (g : Grid K) (n : Nat) (f : Nat → Nat → K) : Prop :=
  g.shape = (n, n) ∧ ∀ i j, i < n → j < n → ∃ v, g.entry? i j = some v ∧ Alike v (f i j)

/-! ## Problems that can be read back -/

section Square
variable {S : Type → Type} [Storage S] [ListingStorage S K]

/-- A well-formed `n × n` matrix of numbers of `F`. -/
structure Storage.SquareIn (F : Set K) (n : Nat) (m : S K) : Prop where
  wellFormed : ListingStorage.WellFormed m
  shape : Storage.shape m = (n, n)
  value_mem : ∀ i j, i < n → j < n → value m i j ∈ F

/-- All numbers are in `F`, and each block has a square constant and, for each variable, a
coefficient matrix of the same size. -/
structure NumericProblem.SquareIn (F : Set K) (p : NumericProblem S K) : Prop where
  objective : ∀ v ∈ p.objective, v ∈ F
  complete : p.IsComplete
  matrices : ∀ block ∈ p.blocks, ∀ m ∈ block.matrices, Storage.SquareIn F block.shape.1 m

theorem NumericProblem.SquareIn.lists {F : Set K} {p : NumericProblem S K} (hp : p.SquareIn F) :
    ∀ block ∈ p.blocks, ∀ m ∈ block.matrices, Lists m := fun block hblock m hm =>
  ListingStorage.lists (hp.matrices block hblock m hm).wellFormed

omit [ListingStorage S K] in
/-- All matrices are symmetric, up to the signs of zeros. -/
def NumericProblem.IsSymmetric (p : NumericProblem S K) : Prop :=
  ∀ block ∈ p.blocks, ∀ m ∈ block.matrices, ∀ i j, i < block.shape.1 → j < block.shape.1 →
    Alike (value m i j) (value m j i)

end Square

namespace Sdpa

/-! ## The reader -/

/-- The entry of a line. -/
def Entry.read? (number : List Char → Option K) (line : List Char) : Option (Entry K) :=
  match line.splitOn ' ' with
  | [matrix, block, row, col, value] => do
    pure ⟨← natural? matrix, ← natural? block, ← natural? row, ← natural? col, ← number value⟩
  | _ => none

/-- Puts the value in, in row and column and in column and row. -/
def Entry.mirrorInto (g : Grid K) (e : Entry K) : Grid K :=
  (g.put (e.row - 1) (e.col - 1) e.value).put (e.col - 1) (e.row - 1) e.value

/-- Zeros with the entries and their mirror images put in. -/
def mirrored (n : Nat) (entries : List (Entry K)) : Grid K :=
  entries.foldl Entry.mirrorInto (Grid.tabulate n n fun _ _ => 0)

/-- What a sparse file says. -/
structure SparseFile (K : Type) where
  objective : List K
  sizes : List Nat
  entries : List (Entry K)

namespace SparseFile

/-- A matrix of a block, which are counted from one. -/
def matrix (file : SparseFile K) (x block : Nat) : Grid K :=
  mirrored (file.sizes[block - 1]?.getD 0)
    (file.entries.filter fun e => e.matrix = x ∧ e.block = block)

def entries? (number : List Char → Option K) (lines : List (List Char)) : Option (List (Entry K)) :=
  lines.mapM (Entry.read? number)

/-- Takes the header, and an entry from each line that follows it. -/
def reader (number : List Char → Option K) : LineReader (SparseFile K) := do
  let (objective, sizes) ← header number
  let entries ← entries? number (← remaining)
  pure ⟨objective, sizes, entries⟩

end SparseFile

/-! ## Mirrored entries -/

/-- The entry is at a cell, counted from zero, or at its mirror image. -/
def Entry.Covers (e : Entry K) (i j : Nat) : Prop :=
  e.row = i + 1 ∧ e.col = j + 1 ∨ e.row = j + 1 ∧ e.col = i + 1

omit [Scalar K] in
theorem Entry.shape_mirrorInto (g : Grid K) (e : Entry K) : (e.mirrorInto g).shape = g.shape := by
  rw [mirrorInto, Grid.shape_put, Grid.shape_put]

omit [Scalar K] in
theorem Entry.entry?_mirrorInto {g : Grid K} {n : Nat} (hg : g.shape = (n, n)) {e : Entry K}
    (hrow : 1 ≤ e.row ∧ e.row ≤ n) (hcol : 1 ≤ e.col ∧ e.col ≤ n) (i j : Nat) :
    (e.Covers i j → Grid.entry? (e.mirrorInto g) i j = some e.value) ∧
      (¬ e.Covers i j → Grid.entry? (e.mirrorInto g) i j = g.entry? i j) := by
  obtain ⟨hrows, hcols⟩ := Prod.mk.inj hg
  obtain ⟨hrows', hcols'⟩ := Prod.mk.inj ((g.shape_put (e.row - 1) (e.col - 1) e.value).trans hg)
  unfold mirrorInto Covers
  rw [Grid.entry?_put (by omega), Grid.entry?_put (by omega)]
  constructor
  · intro hcovers
    split
    · rfl
    · rw [if_pos (by omega)]
  · intro hcovers
    rw [if_neg (by omega), if_neg (by omega)]

theorem mirrored_append_singleton (n : Nat) (before : List (Entry K)) (e : Entry K) :
    mirrored n (before ++ [e]) = e.mirrorInto (mirrored n before) := by
  unfold mirrored
  rw [List.foldl_append]
  rfl

theorem shape_mirrored (n : Nat) (entries : List (Entry K)) :
    (mirrored n entries).shape = (n, n) := by
  induction entries using List.reverseRecOn with
  | nil => rfl
  | append_singleton before e ih => rw [mirrored_append_singleton, Entry.shape_mirrorInto, ih]

/-- A cell reads the value of the entries that cover it, and zero if there is none. -/
theorem entry?_mirrored {n : Nat} {entries : List (Entry K)}
    (hinside : ∀ e ∈ entries, (1 ≤ e.row ∧ e.row ≤ n) ∧ 1 ≤ e.col ∧ e.col ≤ n) {i j : Nat}
    (hi : i < n) (hj : j < n) {v : K} (hvalue : ∀ e ∈ entries, e.Covers i j → e.value = v) :
    ((∃ e ∈ entries, e.Covers i j) → Grid.entry? (mirrored n entries) i j = some v) ∧
      ((∀ e ∈ entries, ¬ e.Covers i j) → Grid.entry? (mirrored n entries) i j = some 0) := by
  induction entries using List.reverseRecOn with
  | nil =>
    refine ⟨?_, fun _ => Grid.entry?_tabulate (fun _ _ => 0) ⟨hi, hj⟩⟩
    rintro ⟨e, he, -⟩
    cases he
  | append_singleton before e ih =>
    rw [List.forall_mem_append, List.forall_mem_singleton] at hinside hvalue
    obtain ⟨hcovered, huncovered⟩ := ih hinside.1 hvalue.1
    obtain ⟨hlast, hother⟩ := Entry.entry?_mirrorInto (shape_mirrored n before) hinside.2.1
      hinside.2.2 i j
    rw [mirrored_append_singleton]
    by_cases he : e.Covers i j
    · refine ⟨fun _ => (hlast he).trans (congrArg some (hvalue.2 he)), fun hnone => ?_⟩
      exact absurd he (hnone e (List.mem_append_right _ List.mem_cons_self))
    · rw [hother he]
      refine ⟨?_, fun hnone => ?_⟩
      · rintro ⟨f, hf, hcovers⟩
        rcases List.mem_append.1 hf with hf | hf
        · exact hcovered ⟨f, hf, hcovers⟩
        · rw [List.mem_singleton.1 hf] at hcovers
          exact absurd hcovers he
      · exact huncovered fun f hf => hnone f (List.mem_append_left _ hf)

/-! ## Matrices out of entries -/

section Matrices
variable {S : Type → Type} [Storage S]

/-- An entry has the value of its cell, which is also that of the mirror image. -/
theorem value_of_covers {x block : Nat} {m : S K} (h : Lists m) {e : Entry K}
    (he : e ∈ matrixEntries x block m) {i j : Nat}
    (hsymmetric : Alike (value m i j) (value m j i)) (hcovers : e.Covers i j) :
    e.value = signed x (value m i j) := by
  obtain ⟨⟨r, c⟩, v, hv, -, rfl⟩ := mem_matrixEntries.1 he
  have hread := h.value_of_mem hv
  simp only [Entry.Covers, Entry.ofListed, Nat.add_right_cancel_iff] at hcovers ⊢
  rcases hcovers with ⟨rfl, rfl⟩ | ⟨rfl, rfl⟩
  · rw [hread]
  · rcases hsymmetric with halike | ⟨-, hzero⟩
    · rw [halike, hread]
    · rw [hread, h.nonzero _ hv] at hzero
      cases hzero

/-- A cell that no entry covers reads zero, and so does its mirror image. -/
theorem value_of_not_covers [LawfulZero K] {x block n : Nat} {m : S K} (h : Lists m)
    (hshape : Storage.shape m = (n, n)) {i j : Nat} (hi : i < n) (hj : j < n)
    (hsymmetric : Alike (value m i j) (value m j i))
    (hnone : ∀ e ∈ matrixEntries x block m, ¬ e.Covers i j) : (value m i j == 0) = true := by
  have hunlisted : ∀ r c, r ≤ c → c < n → (r = i ∧ c = j ∨ r = j ∧ c = i) →
      (value m r c == 0) = true := by
    intro r c hle hc hcell
    have hin : Inside m ⟨r, c⟩ := by
      unfold Inside
      rw [hshape]
      exact ⟨Nat.lt_of_le_of_lt hle hc, hc⟩
    refine h.value_of_not_mem hin fun hkey => ?_
    obtain ⟨⟨cell, v⟩, hv, rfl⟩ := List.mem_map.1 hkey
    refine hnone _ (mem_matrixEntries.2 ⟨_, v, hv, hle, rfl⟩) ?_
    simp only [Entry.Covers, Entry.ofListed]
    omega
  -- the listing is looked at on or above the diagonal only
  rcases Nat.le_total i j with hle | hle
  · exact hunlisted i j hle hj (.inl ⟨rfl, rfl⟩)
  · have hmirror := hunlisted j i hle hi (.inr ⟨rfl, rfl⟩)
    rcases hsymmetric with halike | ⟨hzero, -⟩
    · rwa [halike]
    · exact hzero

omit [Storage S] in
theorem signed_beq_zero [LawfulZeros K] (x : Nat) {v : K} (h : (v == 0) = true) :
    (signed x v == 0) = true := by
  unfold signed
  split
  · exact LawfulZeros.neg_beq_zero h
  · exact h

/-- The mirrored entries of a symmetric matrix show the matrix. -/
theorem shows_mirrored [LawfulZeros K] {x n : Nat} {m : S K} (h : Lists m)
    (hshape : Storage.shape m = (n, n))
    (hsymmetric : ∀ i j, i < n → j < n → Alike (value m i j) (value m j i))
    (block : Nat) {found : List (Entry K)} (hfound : ∀ e, e ∈ found ↔ e ∈ matrixEntries x block m) :
    (mirrored n found).Shows n fun i j => signed x (value m i j) := by
  refine ⟨shape_mirrored n found, fun i j hi hj => ?_⟩
  have hinside : ∀ e ∈ found, (1 ≤ e.row ∧ e.row ≤ n) ∧ 1 ≤ e.col ∧ e.col ≤ n := by
    intro e he
    have hcell := entry_inside h hshape ((hfound e).1 he)
    omega
  obtain ⟨hcovered, huncovered⟩ := entry?_mirrored hinside hi hj fun e he =>
    value_of_covers h ((hfound e).1 he) (hsymmetric i j hi hj)
  by_cases hexists : ∃ e ∈ found, e.Covers i j
  · exact ⟨_, hcovered hexists, .inl rfl⟩
  · push Not at hexists
    have hzero := value_of_not_covers h hshape hi hj (hsymmetric i j hi hj) fun e he =>
      hexists e ((hfound e).2 he)
    exact ⟨0, huncovered hexists, .inr ⟨LawfulZero.zero_beq, signed_beq_zero x hzero⟩⟩

end Matrices

/-! ## Lines -/

section Lines
variable {number : List Char → Option K} {F : Set K}

theorem Entry.toList_line (e : Entry K) : e.line.toList = [' '].intercalate
    [(Nat.repr e.matrix).toList, (Nat.repr e.block).toList, (Nat.repr e.row).toList,
      (Nat.repr e.col).toList, (Scalar.fileText e.value).toList] := by
  unfold line
  rw [String.toList_intercalate]
  rfl

theorem Entry.read?_line (hnumber : ReadsNumber number F) {e : Entry K} (he : e.value ∈ F)
    (hblank : ' ' ∉ (Scalar.fileText e.value).toList) :
    Entry.read? number e.line.toList = some e := by
  have hfields : ∀ field ∈ [(Nat.repr e.matrix).toList, (Nat.repr e.block).toList,
      (Nat.repr e.row).toList, (Nat.repr e.col).toList, (Scalar.fileText e.value).toList],
      ' ' ∉ field := by
    have hdigits : ∀ n : Nat, ' ' ∉ (Nat.repr n).toList := not_mem_natRepr rfl
    simp only [List.forall_mem_cons]
    exact ⟨hdigits _, hdigits _, hdigits _, hdigits _, hblank, nofun⟩
  unfold read?
  rw [Entry.toList_line, List.splitOn_intercalate ' ' hfields (List.cons_ne_nil _ _)]
  simp only [natural?_repr, hnumber _ he]
  rfl

theorem Entry.newline_not_mem_line {e : Entry K} (h : '\n' ∉ (Scalar.fileText e.value).toList) :
    '\n' ∉ e.line.toList := by
  have hdigits : ∀ n : Nat, '\n' ∉ (Nat.repr n).toList := not_mem_natRepr rfl
  rw [Entry.toList_line]
  intro hc
  rcases mem_of_mem_intercalate hc with hc | ⟨part, hpart, hc⟩
  · simp at hc
  · simp only [List.mem_cons, List.not_mem_nil, or_false] at hpart
    rcases hpart with rfl | rfl | rfl | rfl | rfl
    · exact hdigits _ hc
    · exact hdigits _ hc
    · exact hdigits _ hc
    · exact hdigits _ hc
    · exact h hc

end Lines

/-! ## The round trip -/

section RoundTrip
variable {S : Type → Type} [Storage S] [ListingStorage S K] {F : Set K} {p : NumericProblem S K}

theorem value_mem_of_mem_entries (hneg : ∀ v ∈ F, -v ∈ F) (hp : p.SquareIn F) {e : Entry K}
    (he : e ∈ entries p) : e.value ∈ F := by
  obtain ⟨x, b, block, m, -, hblock, hm, he⟩ := mem_entries.1 he
  have hblock := List.mem_of_getElem? hblock
  have hm := List.mem_of_getElem? hm
  obtain ⟨c, v, hv, hle, rfl⟩ := mem_matrixEntries.1 he
  have hlists := hp.lists block hblock m hm
  obtain ⟨-, hshape, hvalues⟩ := hp.matrices block hblock m hm
  have hinside := hlists.inside _ hv
  unfold Inside at hinside
  rw [hshape] at hinside
  have hvF : v ∈ F := hlists.value_of_mem hv ▸ hvalues c.row c.col hinside.1 hinside.2
  show signed x v ∈ F
  unfold signed
  split
  · exact hneg v hvF
  · exact hvF

/-- The file says what the problem is: its objective, its block sizes and, of each block, the
negated constant and the coefficients. Zeros may have either sign. -/
structure SparseFile.Describes (file : SparseFile K) (p : NumericProblem S K) : Prop where
  objective : file.objective = p.objective
  sizes : file.sizes = p.blockSizes
  constant : ∀ b block, p.blocks[b]? = some block →
    (file.matrix 0 (b + 1)).Shows block.shape.1 fun i j => -value block.constant i j
  coefficient : ∀ b block, p.blocks[b]? = some block →
    ∀ k m, block.coefficients[k]? = some m →
      (file.matrix (k + 1) (b + 1)).Shows block.shape.1 fun i j => value m i j

omit [ListingStorage S K] in
theorem describes_entries_of_lists [LawfulZeros K] (hcomplete : p.IsComplete)
    (hlists : ∀ block ∈ p.blocks, ∀ m ∈ block.matrices, Lists m)
    (hshapes : ∀ block ∈ p.blocks, ∀ m ∈ block.matrices,
      Storage.shape m = (block.shape.1, block.shape.1))
    (hsymmetric : p.IsSymmetric) :
    SparseFile.Describes ⟨p.objective, p.blockSizes, entries p⟩ p := by
  have hmatrix : ∀ x b block m, x ≤ p.variableCount → p.blocks[b]? = some block →
      block.matrices[x]? = some m →
      (SparseFile.matrix ⟨p.objective, p.blockSizes, entries p⟩ x (b + 1)).Shows block.shape.1
        fun i j => signed x (value m i j) := by
    intro x b block m hx hblock hm
    have hblockMem := List.mem_of_getElem? hblock
    have hmMem := List.mem_of_getElem? hm
    have hsize : p.blockSizes[b + 1 - 1]?.getD 0 = block.shape.1 := by
      unfold NumericProblem.blockSizes
      rw [Nat.add_sub_cancel, List.getElem?_map, hblock]
      rfl
    unfold SparseFile.matrix
    rw [hsize]
    refine shows_mirrored (hlists block hblockMem m hmMem) (hshapes block hblockMem m hmMem)
      (hsymmetric block hblockMem m hmMem) (b + 1) fun e => ?_
    rw [List.mem_filter, decide_eq_true_iff]
    exact mem_entries_and_matrix hx hblock hm
  refine ⟨rfl, rfl, fun b block hblock => ?_, fun b block hblock k m hm => ?_⟩
  · exact hmatrix 0 b block block.constant (Nat.zero_le _) hblock rfl
  · have hk : k < p.variableCount := by
      rw [← hcomplete block (List.mem_of_getElem? hblock)]
      exact (List.getElem?_eq_some_iff.1 hm).1
    exact hmatrix (k + 1) b block m hk hblock hm

theorem describes_entries [LawfulZeros K] (hp : p.SquareIn F) (hsymmetric : p.IsSymmetric) :
    SparseFile.Describes ⟨p.objective, p.blockSizes, entries p⟩ p :=
  describes_entries_of_lists hp.complete hp.lists
    (fun block hblock m hm => (hp.matrices block hblock m hm).shape) hsymmetric

omit [ListingStorage S K] in
theorem run_reader {number : List Char → Option K} (hnumber : ReadsNumber number F)
    (hunmarked : ∀ v ∈ F, ∀ c ∈ [',', ' '], c ∉ (Scalar.fileText v).toList)
    (hobjective : ∀ v ∈ p.objective, v ∈ F) {found : List (Entry K)}
    (hfound : ∀ e ∈ found, e.value ∈ F) :
    (SparseFile.reader number).run ((headerLines p ++ found.map Entry.line).map String.toList) =
      some (⟨p.objective, p.blockSizes, found⟩, []) := by
  have hentries : SparseFile.entries? number (found.map fun e => e.line.toList) = some found := by
    unfold SparseFile.entries?
    exact mapM_map_eq_some fun e he =>
      Entry.read?_line hnumber (hfound e he) (hunmarked _ (hfound e he) ' ' (by simp))
  unfold SparseFile.reader
  rw [List.map_append, List.map_map, StateT.run_bind,
    reads_header hnumber hunmarked hobjective]
  show ((monadLift (SparseFile.entries? number (found.map fun e => e.line.toList)) :
    LineReader (List (Entry K))).run []).bind _ = _
  rw [hentries]
  rfl

/-- The file of a problem is written, and it is read as the entries of the problem. -/
theorem exists_readText?_renderSparse (hF : LegibleNumbers F [',', ' ', '\n']) (hp : p.SquareIn F) :
    ∃ text, renderSparse p none = .ok text ∧
      text = unlines (headerLines p ++ (entries p).map Entry.line) ∧
      (SparseFile.reader (numberOf F)).readText? text =
        some ⟨p.objective, p.blockSizes, entries p⟩ := by
  have hvalues : ∀ e ∈ entries p, e.value ∈ F := fun e he =>
    value_mem_of_mem_entries hF.neg_mem hp he
  have hunmarked : ∀ v ∈ F, ∀ c ∈ [',', ' '], c ∉ (Scalar.fileText v).toList := fun v hv c hc =>
    hF.unmarked v hv c (List.mem_append_left ['\n'] hc)
  have hunbroken : ∀ line ∈ headerLines p ++ (entries p).map Entry.line, '\n' ∉ line.toList := by
    rw [List.forall_mem_append, List.forall_mem_map]
    exact ⟨newline_not_mem_headerLines fun v hv => hF.unmarked v (hp.objective v hv) _ (by simp),
      fun e he => Entry.newline_not_mem_line (hF.unmarked _ (hvalues e he) _ (by simp))⟩
  exact ⟨_, congrArg (unlines <$> ·) (sparseLines_eq_ok hp.complete none), rfl,
    readText?_unlines hunbroken (run_reader hF.readsNumber hunmarked hp.objective hvalues)⟩

end RoundTrip

/-- A sparse file is read back. Read `F` as the finite numbers, and suppose that no two of them have
one text, and that no text has a comma, a blank or a newline. The file of a symmetric problem with
numbers of `F` is written, and what is read from it describes the problem; the lines after the
header are the entries, which are in range and in order. -/
theorem read_renderSparse [LawfulZeros K] {F : Set K} (hF : LegibleNumbers F [',', ' ', '\n'])
    {backend : Backend} {p : NumericProblem backend.Store K} (hp : p.SquareIn F)
    (hsymmetric : p.IsSymmetric) :
    ∃ text file, renderSparse p none = .ok text ∧
      (SparseFile.reader (numberOf F)).readText? text = some file ∧
      file.Describes p ∧
      text = unlines (headerLines p ++ file.entries.map Entry.line) ∧
      (∀ e ∈ file.entries, e.InRange p.variableCount p.blockSizes) ∧
      (file.entries.map Entry.position).Nodup ∧
      file.entries.Pairwise Entry.Precedes := by
  obtain ⟨text, hwritten, htext, hread⟩ := exists_readText?_renderSparse hF hp
  have horder := entries_precede hp.lists
  refine ⟨text, _, hwritten, hread, describes_entries hp hsymmetric, htext,
    fun e he => inRange_of_mem_entries hp.lists (fun block hblock m hm =>
      (hp.matrices block hblock m hm).shape) he, ?_, horder⟩
  exact List.pairwise_map.2 (horder.imp Entry.Precedes.position_ne)

/-- Blocks of two rows, of none and of one row, in triplets. The first coefficient matrix has a cell
with two triplets and a triplet of zero. -/
theorem read_renderSparse_of_triplets :
    let numbers : List Float := [0, -0, 1, -1, 2.5, -2.5]
    let F : Set Float := {v | ∃ u ∈ numbers, u = v}
    let a : Triplets Float :=
      ⟨2, 2, #[(⟨1, 0⟩, -1), (⟨0, 1⟩, 1), (⟨1, 1⟩, 1), (⟨0, 1⟩, -2), (⟨0, 0⟩, 0)]⟩
    let b : Triplets Float := ⟨2, 2, #[(⟨1, 1⟩, 2.5)]⟩
    let zero (n : Nat) : Triplets Float := ⟨n, n, #[]⟩
    let p : NumericProblem Backend.triplets.Store Float :=
      ⟨[1, -2.5], [⟨[a, b], b⟩, ⟨[zero 0, zero 0], zero 0⟩, ⟨[zero 1, zero 1], zero 1⟩]⟩
    LegibleNumbers F [',', ' ', '\n'] ∧ p.SquareIn F ∧ p.IsSymmetric ∧
    ∃ text file, renderSparse p none = .ok text ∧
      (SparseFile.reader (numberOf F)).readText? text = some file ∧
      file.Describes p ∧
      text = unlines (headerLines p ++ file.entries.map Entry.line) ∧
      (∀ e ∈ file.entries, e.InRange p.variableCount p.blockSizes) ∧
      (file.entries.map Entry.position).Nodup ∧
      file.entries.Pairwise Entry.Precedes := by
  intro numbers F a b zero p
  have hF : LegibleNumbers F [',', ' ', '\n'] :=
    legibleNumbers_of_list (by decide +kernel) (by decide +kernel) (by decide +kernel)
  have hmatrices : ∀ block ∈ p.blocks, ∀ m ∈ block.matrices,
      (∀ q ∈ m.written.toList, q.1.row < m.rows ∧ q.1.col < m.cols) ∧
      shape m = (block.shape.1, block.shape.1) ∧
      ∀ i < block.shape.1, ∀ j < block.shape.1,
        (∃ u ∈ numbers, u = value m i j) ∧
        (value m i j = value m j i ∨ (value m i j == 0) = true ∧ (value m j i == 0) = true) := by
    decide +kernel
  have hp : p.SquareIn F := by
    refine ⟨?_, ?_, fun block hblock m hm => ?_⟩
    · show ∀ v ∈ ([1, -2.5] : List Float), ∃ u ∈ numbers, u = v
      decide +kernel
    · show ∀ block ∈ p.blocks, block.coefficients.length = 2
      decide +kernel
    · obtain ⟨hinside, hshape, hvalues⟩ := hmatrices block hblock m hm
      exact ⟨hinside, hshape, fun i j hi hj => (hvalues i hi j hj).1⟩
  have hsymmetric : p.IsSymmetric := fun block hblock m hm i j hi hj =>
    ((hmatrices block hblock m hm).2.2 i hi j hj).2
  exact ⟨hF, hp, hsymmetric, read_renderSparse hF hp hsymmetric⟩

end Sdpa

end Semidefinite
