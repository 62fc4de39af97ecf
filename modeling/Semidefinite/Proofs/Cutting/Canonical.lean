import Semidefinite.Proofs.Lmi.Limits

/-!
# Cutting canonical matrices

The blocks of inequalities are cut from their canonical matrices, one after the
other (`canonicalBlocks_of_matrices`). Cutting fails only for a matrix that is not
square, or too large to be written out (`BlockMatrix.of_cut_eq_error`): square
matrices are cut however asked for (`BlockMatrix.IsSquare.exists_cut`).
-/

namespace Semidefinite

variable {K : Type} [Scalar K] {cutting : Cutting}

/-! ## Cutting one matrix -/

namespace BlockMatrix

variable {m : BlockMatrix K}

theorem cut_whole_of_hasRoom (h : m.HasRoom) : m.cut .whole = .ok [m.toDense] := by
  show ([·]) <$> m.toDense?.mapError Failure.fault = _
  rw [toDense?_of_hasRoom h]
  rfl

theorem cut_whole_of_not_hasRoom (h : ¬ m.HasRoom) :
    m.cut .whole = .error (.fault (.noRoom m.shape.1 m.shape.2)) := by
  show ([·]) <$> m.toDense?.mapError Failure.fault = _
  rw [toDense?_of_not_hasRoom h]
  rfl

theorem eq_of_cut_whole {own : List (SymMatrix K)} (h : m.cut .whole = .ok own) :
    own = [m.toDense] := by
  by_cases hroom : m.HasRoom
  · exact (Except.ok.inj ((cut_whole_of_hasRoom hroom).symm.trans h)).symm
  · rw [cut_whole_of_not_hasRoom hroom] at h
    cases h

theorem IsSquare.exists_cut (h : m.IsSquare) (cutting : Cutting) :
    ∃ blocks, m.cut cutting = .ok blocks := by
  cases cutting with
  | whole => exact ⟨[m.toDense], cut_whole_of_hasRoom h.carried.hasRoom⟩
  | carried =>
    cases m with
    | whole w => exact ⟨w.pieces, Except.mapError_eq_ok.2 (SymMatrix.splitBlocks_of_square h.shape)⟩
    | blocks parts => exact ⟨parts, rfl⟩
  | finest =>
    cases m with
    | whole w => exact ⟨w.pieces, Except.mapError_eq_ok.2 (SymMatrix.splitBlocks_of_square h.shape)⟩
    | blocks parts =>
      obtain ⟨lists, hlists⟩ := Except.exists_mapM_eq_ok fun p hp =>
        ⟨SymMatrix.pieces p, SymMatrix.splitBlocks_of_square (h.carried parts rfl p hp)⟩
      exact ⟨lists.flatten, Except.mapError_eq_ok.2 (Except.map_eq_ok.2 ⟨lists, hlists, rfl⟩)⟩

theorem of_splitBlocks_eq_error {w : SymMatrix K} {e : LmiError}
    (h : SymMatrix.splitBlocks w = .error e) :
    ∃ rows cols, rows ≠ cols ∧ e = .nonSquare (rows, cols) := by
  by_cases hsquare : w.rows = w.cols
  · rw [SymMatrix.splitBlocks_of_square hsquare] at h
    cases h
  · rw [SymMatrix.splitBlocks_of_not_square hsquare] at h
    cases h
    exact ⟨w.rows, w.cols, hsquare, rfl⟩

/-- Cutting fails where a matrix is not square, or where one that is left whole has no room. -/
theorem of_cut_eq_error {failure : Failure LmiError} (h : m.cut cutting = .error failure) :
    (∃ rows cols, rows ≠ cols ∧ failure = .error (.nonSquare (rows, cols))) ∨
      cutting = .whole ∧ ¬ m.HasRoom ∧ ∃ rows cols, failure = .fault (.noRoom rows cols) := by
  cases cutting with
  | whole =>
    by_cases hroom : m.HasRoom
    · rw [cut_whole_of_hasRoom hroom] at h
      cases h
    · rw [cut_whole_of_not_hasRoom hroom] at h
      cases h
      exact .inr ⟨rfl, hroom, _, _, rfl⟩
  | carried =>
    cases m with
    | whole w =>
      obtain ⟨e, he, rfl⟩ := Except.mapError_eq_error.1 h
      obtain ⟨rows, cols, hne, rfl⟩ := of_splitBlocks_eq_error he
      exact .inl ⟨rows, cols, hne, rfl⟩
    | blocks parts => cases h
  | finest =>
    cases m with
    | whole w =>
      obtain ⟨e, he, rfl⟩ := Except.mapError_eq_error.1 h
      obtain ⟨rows, cols, hne, rfl⟩ := of_splitBlocks_eq_error he
      exact .inl ⟨rows, cols, hne, rfl⟩
    | blocks parts =>
      obtain ⟨e, he, rfl⟩ := Except.mapError_eq_error.1 h
      obtain ⟨p, -, hp⟩ := Except.exists_of_mapM_eq_error (Except.map_eq_error.1 he)
      obtain ⟨rows, cols, hne, rfl⟩ := of_splitBlocks_eq_error hp
      exact .inl ⟨rows, cols, hne, rfl⟩

/-- Blocks that are not the matrix itself and not carried by it cannot be split further. -/
theorem irreducible_of_mem_cut {blocks : List (SymMatrix K)} (h : m.cut cutting = .ok blocks)
    (hcutting : cutting = .finest ∨ cutting = .carried ∧ ∃ w, m = .whole w) {b : SymMatrix K}
    (hb : b ∈ blocks) : b.Irreducible := by
  cases m with
  | whole w =>
    rcases hcutting with rfl | ⟨rfl, -⟩
    · exact SymMatrix.irreducible_of_mem_splitBlocks (Except.mapError_eq_ok.1 h) hb
    · exact SymMatrix.irreducible_of_mem_splitBlocks (Except.mapError_eq_ok.1 h) hb
  | blocks parts =>
    rcases hcutting with rfl | ⟨-, w, hw⟩
    · obtain ⟨lists, hlists, rfl⟩ := Except.map_eq_ok.1 (Except.mapError_eq_ok.1 h)
      obtain ⟨list, hlist, hb⟩ := List.mem_flatten.1 hb
      obtain ⟨p, -, hp⟩ := exists_of_mem_right (Except.forall₂_of_mapM_eq_ok hlists) hlist
      exact SymMatrix.irreducible_of_mem_splitBlocks hp hb
    · cases hw

end BlockMatrix

/-! ## Cutting all matrices -/

namespace Lmi

/-- There is room for comparing the sides, and for writing them out where that is asked for. -/
def HasRoomFor (cutting : Cutting) (l : Lmi K) : Prop :=
  l.HasRoom ∧ (cutting = .whole → ∀ s, l.IsSide s → s.HasRoom)

theorem canonicalBlocks_of_matrix {l : Lmi K} {m : BlockMatrix K}
    (h : l.canonicalMatrix = .ok m) (cutting : Cutting) :
    l.canonicalBlocks cutting = m.cut cutting := by
  unfold canonicalBlocks
  rw [h]
  rfl

/-- Cutting the canonical matrix fails if it is not square, and else for want of room. -/
theorem of_canonicalBlocks_eq_error [LawfulZero K] {l : Lmi K}
    (hchecked : checkOperands l.lhs l.rhs = .ok ()) {failure : Failure LmiError}
    (h : l.canonicalBlocks cutting = .error failure) :
    (∃ rows cols, rows ≠ cols ∧ failure = .error (.nonSquare (rows, cols))) ∨
      ¬ l.HasRoomFor cutting ∧ ∃ rows cols, failure = .fault (.noRoom rows cols) := by
  by_cases hroom : l.HasRoom
  · obtain ⟨m, hm, -, -, -, hwrite⟩ := exists_canonicalMatrix hchecked hroom
    rw [canonicalBlocks_of_matrix hm] at h
    refine (BlockMatrix.of_cut_eq_error h).imp_right ?_
    rintro ⟨rfl, hnone, hfailure⟩
    exact ⟨fun hfor => hnone (hwrite (hfor.2 rfl)), hfailure⟩
  · obtain ⟨rows, cols, hfault⟩ := canonicalMatrix_of_not_hasRoom hchecked hroom
    unfold canonicalBlocks at h
    rw [hfault] at h
    cases h
    exact .inr ⟨fun hfor => hroom hfor.1, rows, cols, rfl⟩

end Lmi

section Lists
variable {lmis : List (Lmi K)} {ms : List (BlockMatrix K)}

theorem canonicalBlocks_of_matrices (h : lmis.mapM Lmi.canonicalMatrix = .ok ms)
    (cutting : Cutting) :
    canonicalBlocks lmis cutting = List.flatten <$> ms.mapM (BlockMatrix.cut cutting) := by
  have hms := Except.forall₂_of_mapM_eq_ok h
  clear h
  unfold canonicalBlocks
  congr 1
  induction hms with
  | nil => rfl
  | @cons l m lmis ms hm _ ih =>
    rw [List.mapM_cons, List.mapM_cons, Lmi.canonicalBlocks_of_matrix hm, ih]

theorem exists_matrices_of_canonicalBlocks {blocks : List (SymMatrix K)}
    (h : canonicalBlocks lmis cutting = .ok blocks) :
    ∃ ms, lmis.mapM Lmi.canonicalMatrix = .ok ms := by
  obtain ⟨lists, hlists, -⟩ := Except.map_eq_ok.1 h
  refine Except.exists_mapM_eq_ok fun l hl => ?_
  obtain ⟨own, -, hown⟩ := exists_of_mem_right (Except.forall₂_of_mapM_eq_ok hlists).flip hl
  obtain ⟨m, hm, -⟩ := Lmi.canonicalBlocks_eq_ok hown
  exact ⟨m, hm⟩

theorem exists_lists_of_canonicalBlocks {blocks : List (SymMatrix K)}
    (h : lmis.mapM Lmi.canonicalMatrix = .ok ms)
    (hblocks : canonicalBlocks lmis cutting = .ok blocks) :
    ∃ lists, blocks = List.flatten lists ∧
      List.Forall₂ (fun m own => m.cut cutting = .ok own) ms lists := by
  rw [canonicalBlocks_of_matrices h, Except.map_eq_ok] at hblocks
  obtain ⟨lists, hlists, rfl⟩ := hblocks
  exact ⟨lists, rfl, Except.forall₂_of_mapM_eq_ok hlists⟩

variable [LawfulZero K]

theorem exists_matrices (hlmis : ∀ l ∈ lmis, ∃ lhs rhs kind, Lmi.make lhs rhs kind true = .ok l) :
    ∃ ms, lmis.mapM Lmi.canonicalMatrix = .ok ms := by
  refine Except.exists_mapM_eq_ok fun l hl => ?_
  obtain ⟨lhs, rhs, kind, hmake⟩ := hlmis l hl
  exact (Lmi.exists_canonicalMatrix_iff (Lmi.checkOperands_of_make hmake)).2
    (Lmi.hasRoom_of_make hmake).1

theorem isSquare_of_mem_matrices
    (hlmis : ∀ l ∈ lmis, ∃ lhs rhs kind, Lmi.make lhs rhs kind true = .ok l)
    (h : lmis.mapM Lmi.canonicalMatrix = .ok ms) {m : BlockMatrix K} (hm : m ∈ ms) :
    m.IsSquare := by
  obtain ⟨l, hl, hlm⟩ := exists_of_mem_right (Except.forall₂_of_mapM_eq_ok h) hm
  obtain ⟨lhs, rhs, kind, hmake⟩ := hlmis l hl
  exact Lmi.isSquare_canonicalMatrix (Lmi.checkOperands_of_make hmake)
    (fun _ => Lmi.isSquare_of_make hmake) hlm

omit [LawfulZero K] in
theorem exists_canonicalBlocks (h : lmis.mapM Lmi.canonicalMatrix = .ok ms)
    (hsquare : ∀ m ∈ ms, m.IsSquare) (cutting : Cutting) :
    ∃ blocks, canonicalBlocks lmis cutting = .ok blocks := by
  obtain ⟨lists, hlists⟩ := Except.exists_mapM_eq_ok fun m hm => (hsquare m hm).exists_cut cutting
  exact ⟨lists.flatten, by rw [canonicalBlocks_of_matrices h, hlists]; rfl⟩

/-- Cutting fails for a matrix that is not square, and else for want of room. -/
theorem of_canonicalBlocks_eq_error
    (hchecked : ∀ l ∈ lmis, Lmi.checkOperands l.lhs l.rhs = .ok ()) {failure : Failure LmiError}
    (h : canonicalBlocks lmis cutting = .error failure) :
    (∃ rows cols, rows ≠ cols ∧ failure = .error (.nonSquare (rows, cols))) ∨
      ∃ l ∈ lmis, ¬ l.HasRoomFor cutting ∧ ∃ rows cols, failure = .fault (.noRoom rows cols) := by
  obtain ⟨l, hl, hfailure⟩ := Except.exists_of_mapM_eq_error (Except.map_eq_error.1 h)
  exact (Lmi.of_canonicalBlocks_eq_error (hchecked l hl) hfailure).imp_right fun hnone =>
    ⟨l, hl, hnone⟩

end Lists

/-- The blocks of inequalities are cut from the canonical matrices along the diagonal. -/
theorem isCutInto_canonicalBlocks {lmis : List (Lmi ℚ)} {ms : List (BlockMatrix ℚ)}
    {blocks : List (SymMatrix ℚ)} (h : lmis.mapM Lmi.canonicalMatrix = .ok ms)
    (hblocks : canonicalBlocks lmis cutting = .ok blocks) :
    IsCutInto (SymMatrix.blockDiagonal (ms.map BlockMatrix.toDense)) blocks := by
  obtain ⟨lists, rfl, hlists⟩ := exists_lists_of_canonicalBlocks h hblocks
  refine isCutInto_flatten ?_
  rw [List.forall₂_map_left_iff]
  exact hlists.imp fun _ _ hcut => BlockMatrix.isCutInto_cut hcut

/-- Cutting loses nothing. Placed along the diagonal the blocks have the shape of the canonical
matrices along the diagonal; what lies inside a block is the entry there, and what lies outside
denotes zero. The finest blocks have some rows and cannot be split; a matrix keeps the blocks
that it carries if asked to, and is one block if left whole. Only a matrix that is not square
cannot be cut, or one that there is no room for, and none of inequalities whose symmetry was
checked is either. -/
theorem canonicalBlocks_lossless (lmis : List (Lmi ℚ))
    (hlmis : ∀ l ∈ lmis, ∃ lhs rhs kind check, Lmi.make lhs rhs kind check = .ok l)
    (hlimits : ∀ l ∈ lmis, l.WithinLimits) (cutting : Cutting) :
    (∀ blocks, canonicalBlocks lmis cutting = .ok blocks →
      (∀ b ∈ blocks, SymMatrix.AllEntries Expr.ExponentsFit b) ∧
      ∃ ms : List (BlockMatrix ℚ), lmis.mapM Lmi.canonicalMatrix = .ok ms ∧
        (∀ m ∈ ms, m.InWords) ∧
        IsCutInto (SymMatrix.blockDiagonal (ms.map BlockMatrix.toDense)) blocks ∧
        (cutting = .finest → ∀ b ∈ blocks, SymMatrix.Irreducible b) ∧
        (cutting = .carried → ∃ lists, blocks = List.flatten lists ∧
          List.Forall₂ (fun m own =>
            (∀ parts, m = .blocks parts → own = parts) ∧
            ∀ w, m = .whole w → ∀ b ∈ own, SymMatrix.Irreducible b) ms lists) ∧
        (cutting = .whole → blocks = ms.map BlockMatrix.toDense ∧ blocks.length = lmis.length)) ∧
    (∀ failure, canonicalBlocks lmis cutting = .error failure →
      (∃ rows cols, rows ≠ cols ∧ failure = .error (.nonSquare (rows, cols))) ∨
      ∃ l ∈ lmis, ¬ l.HasRoomFor cutting ∧ ∃ rows cols, failure = .fault (.noRoom rows cols)) ∧
    ((∀ l ∈ lmis, ∃ lhs rhs kind, Lmi.make lhs rhs kind true = .ok l) →
      ∃ blocks, canonicalBlocks lmis cutting = .ok blocks) := by
  have hchecked : ∀ l ∈ lmis, Lmi.checkOperands l.lhs l.rhs = .ok () := by
    intro l hl
    obtain ⟨lhs, rhs, kind, check, hmake⟩ := hlmis l hl
    exact Lmi.checkOperands_of_make hmake
  refine ⟨fun blocks hblocks => ⟨exponentsFit_canonicalBlocks hlimits hblocks, ?_⟩,
    fun failure => of_canonicalBlocks_eq_error hchecked, fun hsymmetric => ?_⟩
  · obtain ⟨ms, hms⟩ := exists_matrices_of_canonicalBlocks hblocks
    obtain ⟨lists, rfl, hlists⟩ := exists_lists_of_canonicalBlocks hms hblocks
    refine ⟨ms, hms, fun m hm => ?_, isCutInto_canonicalBlocks hms hblocks, ?_, ?_, ?_⟩
    · obtain ⟨l, hl, hlm⟩ := exists_of_mem_right (Except.forall₂_of_mapM_eq_ok hms) hm
      exact Lmi.inWords_canonicalMatrix (hchecked l hl) (hlimits l hl).inWords hlm
    · rintro rfl b hb
      obtain ⟨own, hown, hb⟩ := List.mem_flatten.1 hb
      obtain ⟨m, -, hcut⟩ := exists_of_mem_right hlists hown
      exact BlockMatrix.irreducible_of_mem_cut hcut (.inl rfl) hb
    · rintro rfl
      refine ⟨lists, rfl, hlists.imp fun m own hcut => ⟨?_, ?_⟩⟩
      · rintro parts rfl
        exact (Except.ok.inj hcut).symm
      · rintro w rfl b hb
        exact BlockMatrix.irreducible_of_mem_cut hcut (.inr ⟨rfl, w, rfl⟩) hb
    · rintro rfl
      have hwhole : lists = ms.map fun m => [m.toDense] := by
        rw [← List.forall₂_eq_eq_eq, List.forall₂_map_right_iff]
        exact hlists.flip.imp fun _ _ hcut => BlockMatrix.eq_of_cut_whole hcut
      have hflatten : lists.flatten = ms.map BlockMatrix.toDense := by
        rw [hwhole, ← List.flatMap_def, List.map_eq_flatMap]
      have hlength := (Except.forall₂_of_mapM_eq_ok hms).length_eq
      exact ⟨hflatten, by rw [hflatten, List.length_map, hlength]⟩
  · obtain ⟨ms, hms⟩ := exists_matrices hsymmetric
    exact exists_canonicalBlocks hms (fun _ => isSquare_of_mem_matrices hsymmetric hms) cutting

/-- In `x` and `2`, coupled by `y - y`, and `y` above nothing there are three finest blocks. -/
theorem canonicalBlocks_lossless_of_cancelled_coupling :
    let x : Symbol := { name := "x" }
    let y : Symbol := { name := "y" }
    let coupling : Expr ℚ := .sum [.symbol y, .product [.const (-1), .symbol y]]
    let coupled : Lmi ℚ :=
      ⟨.matrix (.whole (Grid.tabulate 2 2 fun i j =>
        if i = j then [.symbol x, .const 2][i] else coupling)), .zero, .psd⟩
    let carrying : Lmi ℚ :=
      ⟨.zero, .matrix (.blocks [SymMatrix.diagonal [.symbol y], SymMatrix.diagonal []]), .nsd⟩
    let lmis := [coupled, carrying]
    (∀ l ∈ lmis, ∃ lhs rhs kind check, Lmi.make lhs rhs kind check = .ok l) ∧
    (∀ l ∈ lmis, l.WithinLimits) ∧
    ∃ ms blocks, lmis.mapM Lmi.canonicalMatrix = .ok ms ∧
      canonicalBlocks lmis .finest = .ok blocks ∧ blocks.length = 3 ∧
      IsCutInto (SymMatrix.blockDiagonal (ms.map BlockMatrix.toDense)) blocks ∧
      ∀ b ∈ blocks, SymMatrix.Irreducible b := by
  intro x y coupling coupled carrying lmis
  have hsymmetric : ∀ l ∈ lmis, l.lhs.isSymmetric = true ∧ l.rhs.isSymmetric = true := by
    decide +kernel
  have hoperands : ∀ l ∈ lmis, Lmi.checkOperands l.lhs l.rhs = .ok () :=
    List.forall_mem_cons.2 ⟨rfl, List.forall_mem_singleton.2 rfl⟩
  have hmake : ∀ l ∈ lmis, Lmi.make l.lhs l.rhs l.kind true = .ok l :=
    fun l hl => Lmi.make_of_checked (hoperands l hl) fun _ => hsymmetric l hl
  have hlmis : ∀ l ∈ lmis, ∃ lhs rhs kind check, Lmi.make lhs rhs kind check = .ok l :=
    fun l hl => ⟨l.lhs, l.rhs, l.kind, true, hmake l hl⟩
  have hlimits : ∀ l ∈ lmis, l.WithinLimits := fun l hl =>
    Lmi.withinLimits_of_operands (by revert l; decide +kernel) (by revert l; decide +kernel)
  have hcount : (canonicalBlocks lmis .finest).toOption.map List.length = some 3 := by
    decide +kernel
  obtain ⟨hkept, -, hsucceeds⟩ := canonicalBlocks_lossless lmis hlmis hlimits .finest
  obtain ⟨blocks, hblocks⟩ := hsucceeds fun l hl => ⟨l.lhs, l.rhs, l.kind, hmake l hl⟩
  obtain ⟨-, ms, hms, -, hcut, hirreducible, -, -⟩ := hkept blocks hblocks
  refine ⟨hlmis, hlimits, ms, blocks, hms, hblocks, ?_, hcut, hirreducible rfl⟩
  rw [hblocks] at hcount
  exact Option.some.inj hcount

/-- Four rows beside `2 ^ 62` columns, compared with the same in the other order: no entry is there,
and yet there is no room. -/
theorem canonicalBlocks_not_lossless_of_unlike_strips :
    let l : Lmi ℚ := Lmi.strips 4 (2 ^ 62) .psd
    Lmi.make l.lhs l.rhs l.kind false = .ok l ∧ l.WithinLimits ∧
      ∃ rows cols, canonicalBlocks [l] .finest = .error (.fault (.noRoom rows cols)) := by
  intro l
  have hlimits : l.WithinLimits :=
    Lmi.withinLimits_of_operands (by decide +kernel) (by decide +kernel)
  obtain ⟨rows, cols, hfault⟩ :=
    Lmi.canonicalMatrix_of_not_hasRoom (l := l) rfl (Lmi.not_hasRoom_strips .psd (by decide))
  refine ⟨rfl, hlimits, rows, cols, ?_⟩
  rw [canonicalBlocks, List.mapM_cons, Lmi.canonicalBlocks, hfault]
  rfl

end Semidefinite
