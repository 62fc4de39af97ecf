import Semidefinite.Lmi.Basic
import Semidefinite.Proofs.Expr.Zero
import Semidefinite.Proofs.Grid
import Semidefinite.Proofs.Lowering
import Semidefinite.Proofs.Room

/-!
# Blocks are a representation

Negating a matrix that is given by blocks, and taking the difference of two,
gives what the matrices written out give (`toDense_negate`,
`difference_of_shape`). So the canonical matrix of an inequality is known without
looking at the blocks that its sides carry, provided there is room for it: there
is none exactly if the blocks of the sides are of different shapes and do not fit
together (`exists_canonicalMatrix_iff`).
-/

namespace Semidefinite

variable {K : Type}

/-! ## Shapes of the sides -/

namespace BlockMatrix

/-- The matrices that a matrix is given by: itself, or the blocks on its diagonal. -/
def parts : BlockMatrix K → List (SymMatrix K)
  | whole m => [m]
  | blocks parts => parts

/-- Each block that the matrix carries is square. -/
def CarriesSquares (m : BlockMatrix K) : Prop :=
  ∀ parts, m = blocks parts → ∀ p ∈ parts, Grid.rows p = Grid.cols p

/-- The matrix is square, and so is each block that it carries. -/
structure IsSquare (m : BlockMatrix K) : Prop where
  shape : m.shape.1 = m.shape.2
  carried : m.CarriesSquares

/-- The rows and the columns are counted in words of 64 bits. -/
def InWords (m : BlockMatrix K) : Prop :=
  m.shape.1 < UInt64.size ∧ m.shape.2 < UInt64.size

theorem carriesSquares_whole (m : SymMatrix K) : (whole m).CarriesSquares :=
  fun _ h => nomatch h

theorem CarriesSquares.hasRoom {m : BlockMatrix K} (h : m.CarriesSquares) : m.HasRoom := by
  cases m with
  | whole m => exact hasRoom_whole m
  | blocks parts => exact Grid.fits_of_square _ (h parts rfl)

theorem CarriesSquares.isSquare {parts : List (SymMatrix K)} (h : (blocks parts).CarriesSquares) :
    (blocks parts).IsSquare :=
  ⟨congrArg List.sum (List.map_congr_left (h parts rfl)), h⟩

end BlockMatrix

namespace Lmi

/-- Matrices on both sides have one shape, and zero is not on both sides. -/
theorem checkOperands_eq_ok {lhs rhs : Operand K} (h : checkOperands lhs rhs = .ok ()) :
    (∃ a b, lhs = .matrix a ∧ rhs = .matrix b ∧ a.shape = b.shape) ∨
    (∃ a, lhs = .matrix a ∧ rhs = .zero) ∨ (∃ b, lhs = .zero ∧ rhs = .matrix b) := by
  unfold checkOperands at h
  split at h
  · rename_i a b
    split at h
    · exact .inl ⟨a, b, rfl, rfl, ‹_›⟩
    · cases h
  · cases h
  · cases lhs with
    | zero =>
      cases rhs with
      | zero => simp_all
      | matrix b => exact .inr (.inr ⟨b, rfl, rfl⟩)
    | matrix a =>
      cases rhs with
      | zero => exact .inr (.inl ⟨a, rfl, rfl⟩)
      | matrix b => simp_all

theorem checkOperands_comm {lhs rhs : Operand K} (h : checkOperands lhs rhs = .ok ()) :
    checkOperands rhs lhs = .ok () := by
  rcases checkOperands_eq_ok h with ⟨a, b, rfl, rfl, hshape⟩ | ⟨a, rfl, rfl⟩ | ⟨b, rfl, rfl⟩
  · exact if_pos hshape.symm
  · rfl
  · rfl

/-- The greater and the lesser side pass the check of the operands as well. -/
theorem checkOperands_sides {l : Lmi K} (h : checkOperands l.lhs l.rhs = .ok ()) :
    checkOperands l.greater l.lesser = .ok () := by
  unfold greater lesser
  cases l.kind.isPositive
  · exact checkOperands_comm h
  · exact h

def IsSide (l : Lmi K) (m : BlockMatrix K) : Prop :=
  l.lhs = .matrix m ∨ l.rhs = .matrix m

theorem isSide_iff {l : Lmi K} {m : BlockMatrix K} :
    l.IsSide m ↔ l.greater = .matrix m ∨ l.lesser = .matrix m := by
  unfold IsSide greater lesser
  cases l.kind.isPositive
  · exact or_comm
  · exact Iff.rfl

/-- The sums of rows and of columns that the sides are compared by are words. -/
def InWords (l : Lmi K) : Prop :=
  ∀ s, l.IsSide s → s.InWords

theorem exists_operand_of_isSide {l : Lmi K} {s : BlockMatrix K} (h : l.IsSide s) :
    ∃ o ∈ [l.lhs, l.rhs], s ∈ o.matrix? := by
  rcases h with hs | hs
  · exact ⟨l.lhs, by simp, by simp [hs, Operand.matrix?]⟩
  · exact ⟨l.rhs, by simp, by simp [hs, Operand.matrix?]⟩

theorem inWords_of_operands {l : Lmi K} (hshape : ∀ o ∈ [l.lhs, l.rhs], ∀ s ∈ o.matrix?,
    s.shape.1 < UInt64.size ∧ s.shape.2 < UInt64.size) : l.InWords := by
  intro s hs
  obtain ⟨o, ho, hs⟩ := exists_operand_of_isSide hs
  exact hshape o ho s hs

/-- Two matrix sides can be compared block by block or written out. -/
def HasRoom (l : Lmi K) : Prop :=
  ∀ a b, l.greater = .matrix a → l.lesser = .matrix b → a.HaveRoom b

theorem hasRoom_of_sides {l : Lmi K} (h : ∀ s, l.IsSide s → s.HasRoom) : l.HasRoom :=
  fun a b ha hb => .inr ⟨h a (isSide_iff.2 (.inl ha)), h b (isSide_iff.2 (.inr hb))⟩

theorem exists_isSide {l : Lmi K} (h : checkOperands l.lhs l.rhs = .ok ()) : ∃ m, l.IsSide m := by
  rcases checkOperands_eq_ok h with ⟨a, b, ha, -, -⟩ | ⟨a, ha, -⟩ | ⟨b, -, hb⟩
  · exact ⟨a, .inl ha⟩
  · exact ⟨a, .inl ha⟩
  · exact ⟨b, .inr hb⟩

end Lmi

variable [Scalar K]

namespace SymMatrix

/-! ## Differences of matrices -/

/-- `m - n`, for matrices of one shape. -/
def minus (m n : SymMatrix K) : SymMatrix K :=
  Grid.tabulate m.rows m.cols fun i j => m.entry i j - (n.entry? i j).getD Expr.zero

theorem entry?_minus (m n : SymMatrix K) (i j : Nat) :
    Grid.entry? (minus m n) i j =
      (m.entry? i j).map fun a => a - (n.entry? i j).getD Expr.zero := by
  unfold minus
  by_cases h : i < m.rows ∧ j < m.cols
  · rw [Grid.entry?_tabulate _ h, m.entry?_eq_some h, Option.map_some]
  · rw [Grid.entry?_tabulate_eq_none _ h, m.entry?_eq_none h, Option.map_none]

theorem entrywiseDifference_of_shape {m n : SymMatrix K} (h : m.shape = n.shape) :
    BlockMatrix.entrywiseDifference m n = .ok (minus m n) := by
  obtain ⟨hrows, hcols⟩ := Prod.mk.inj h
  have hcovered : submatrix n 0 m.rows 0 m.cols = .ok n := by
    rw [submatrix, hrows, hcols, Grid.window_self]
    rfl
  unfold BlockMatrix.entrywiseDifference
  rw [hcovered]
  rfl

section Blocks
variable {left right : List (SymMatrix K)}
  (hlayout : List.Forall₂ (fun m n => Grid.shape m = Grid.shape n) left right)
include hlayout

theorem mapM_entrywiseDifference :
    (left.zip right).mapM (fun (m, n) => BlockMatrix.entrywiseDifference m n) =
      .ok (List.zipWith minus left right) := by
  induction hlayout with
  | nil => rfl
  | cons hmn _ ih =>
    have hfirst := entrywiseDifference_of_shape hmn
    rw [List.zip_cons_cons, List.mapM_cons]
    simp only [hfirst, ih]
    rfl

theorem diagonalCell?_minus (i j : Nat) :
    Grid.diagonalCell? (List.zipWith minus left right) i j =
      (Grid.diagonalCell? left i j).map fun a =>
        a - (Grid.diagonalCell? right i j).getD Expr.zero := by
  induction hlayout generalizing i j with
  | nil => rfl
  | @cons m n left right hmn _ ih =>
    obtain ⟨hrows, hcols⟩ := Prod.mk.inj hmn
    rw [List.zipWith_cons_cons, Grid.diagonalCell?, Grid.diagonalCell?, Grid.diagonalCell?,
      ← hrows, ← hcols, show (minus m n).rows = m.rows from rfl,
      show (minus m n).cols = m.cols from rfl]
    split
    · exact entry?_minus m n i j
    · split
      · exact ih _ _
      · rfl

theorem map_shape_minus : (List.zipWith minus left right).map Grid.shape = left.map Grid.shape := by
  induction hlayout with
  | nil => rfl
  | cons _ _ ih =>
    rw [List.zipWith_cons_cons, List.map_cons, List.map_cons, ih]
    rfl

theorem blockDiagonal_minus [LawfulZero K] :
    blockDiagonal (List.zipWith minus left right) =
      minus (blockDiagonal left) (blockDiagonal right) := by
  have hshape := Grid.shape_blockDiagonal_congr Expr.zero Expr.zero (map_shape_minus hlayout)
  have hshape' := Grid.shape_blockDiagonal_congr Expr.zero Expr.zero
    (Grid.forall₂_shape_iff.1 hlayout)
  obtain ⟨hrows, hcols⟩ := Prod.mk.inj hshape
  obtain ⟨hrows', hcols'⟩ := Prod.mk.inj hshape'
  refine Grid.ext_entry? hrows hcols fun i j hi hj => ?_
  have hleft : i < (left.map Grid.rows).sum ∧ j < (left.map Grid.cols).sum :=
    ⟨Nat.lt_of_lt_of_eq hi hrows, Nat.lt_of_lt_of_eq hj hcols⟩
  have hright : i < (right.map Grid.rows).sum ∧ j < (right.map Grid.cols).sum :=
    ⟨Nat.lt_of_lt_of_eq hleft.1 hrows', Nat.lt_of_lt_of_eq hleft.2 hcols'⟩
  have hcovered := Grid.isSome_diagonalCell?_congr hlayout i j
  rw [entry?_minus, blockDiagonal, blockDiagonal, blockDiagonal,
    Grid.entry?_blockDiagonal _ _ ⟨hi, hj⟩, Grid.entry?_blockDiagonal _ _ hleft,
    Grid.entry?_blockDiagonal _ _ hright, diagonalCell?_minus hlayout, Option.map_some,
    Option.getD_some]
  cases hcell : Grid.diagonalCell? left i j with
  | some a => rfl
  | none =>
    -- the other side has no block here either
    rw [hcell, Option.isSome_none, eq_comm, Option.isSome_eq_false_iff,
      Option.isNone_iff_eq_none] at hcovered
    rw [hcovered, Option.map_none, Option.getD_none, Expr.zero_sub_zero]

end Blocks

end SymMatrix

namespace BlockMatrix

theorem rows_toDense (m : BlockMatrix K) : Grid.rows m.toDense = m.shape.1 := by
  cases m <;> rfl

theorem cols_toDense (m : BlockMatrix K) : Grid.cols m.toDense = m.shape.2 := by
  cases m <;> rfl

theorem shape_toDense (m : BlockMatrix K) : Grid.shape m.toDense = m.shape :=
  Prod.ext m.rows_toDense m.cols_toDense

theorem shape_toDense_congr {left right : BlockMatrix K} (h : left.shape = right.shape) :
    Grid.shape left.toDense = Grid.shape right.toDense :=
  (left.shape_toDense.trans h).trans right.shape_toDense.symm

theorem shape_of_toDense_eq_minus {d left right : BlockMatrix K}
    (h : d.toDense = SymMatrix.minus left.toDense right.toDense) : d.shape = left.shape := by
  rw [← shape_toDense, h, ← shape_toDense left]
  rfl

theorem shape_negate (m : BlockMatrix K) : m.negate.shape = m.shape := by
  cases m with
  | whole m => rfl
  | blocks parts => simp [negate, shape, SymMatrix.negate, Function.comp_def]

/-! ## Square matrices -/

theorem isSquare_of_isSymmetric {m : BlockMatrix K} (h : m.isSymmetric = true) : m.IsSquare := by
  have hsquare : ∀ w : SymMatrix K, SymMatrix.isSymmetric w = true → w.rows = w.cols := by
    intro w hw
    unfold SymMatrix.isSymmetric at hw
    split at hw
    · assumption
    · cases hw
  cases m with
  | whole w => exact ⟨hsquare w h, carriesSquares_whole w⟩
  | blocks parts =>
    refine CarriesSquares.isSquare fun parts' hparts p hp => hsquare p ?_
    cases hparts
    exact List.all_eq_true.1 h p hp

theorem HasRoom.negate {m : BlockMatrix K} (h : m.HasRoom) : m.negate.HasRoom := by
  cases m with
  | whole m => exact hasRoom_whole _
  | blocks parts =>
    have hshapes : (parts.map SymMatrix.negate).map Grid.shape = parts.map Grid.shape :=
      List.map_map
    exact (hasRoom_congr hshapes).2 h

theorem CarriesSquares.negate {m : BlockMatrix K} (h : m.CarriesSquares) :
    m.negate.CarriesSquares := by
  intro parts hparts p hp
  cases m with
  | whole m => cases hparts
  | blocks own =>
    cases hparts
    obtain ⟨q, hq, rfl⟩ := List.mem_map.1 hp
    exact h own rfl q hq

/-! ## Differences -/

/-- A difference is taken block by block between blocks of the same shapes, and otherwise between
the matrices written out. -/
theorem difference_split (left right : BlockMatrix K) :
    (∃ ms ns, left = blocks ms ∧ right = blocks ns ∧ ms.map Grid.shape = ns.map Grid.shape ∧
      left.difference right =
        blocks <$> (ms.zip ns).mapM fun (m, n) => entrywiseDifference m n) ∨
    ¬ left.SharesLayout right ∧ left.difference right = left.denseDifference right := by
  cases left with
  | whole m => exact .inr ⟨by rintro ⟨_, _, ⟨⟩, -⟩, rfl⟩
  | blocks ms =>
    cases right with
    | whole n => exact .inr ⟨by rintro ⟨_, _, -, ⟨⟩, -⟩, rfl⟩
    | blocks ns =>
      by_cases hlayout : ms.map Grid.shape = ns.map Grid.shape
      · exact .inl ⟨ms, ns, rfl, rfl, hlayout, if_pos (beq_iff_eq.2 hlayout)⟩
      · refine .inr ⟨?_, if_neg fun h => hlayout (beq_iff_eq.1 h)⟩
        rintro ⟨ms', ns', hms, hns, hshapes⟩
        cases hms
        cases hns
        exact hlayout hshapes

theorem denseDifference_of_shape {left right : BlockMatrix K} (hshape : left.shape = right.shape)
    (hleft : left.HasRoom) (hright : right.HasRoom) :
    left.denseDifference right = .ok (whole (SymMatrix.minus left.toDense right.toDense)) := by
  unfold denseDifference
  rw [toDense?_of_hasRoom hleft, toDense?_of_hasRoom hright]
  show whole <$> entrywiseDifference left.toDense right.toDense = _
  rw [SymMatrix.entrywiseDifference_of_shape (shape_toDense_congr hshape)]
  rfl

theorem difference_of_not_haveRoom {left right : BlockMatrix K} (hshape : left.shape = right.shape)
    (h : ¬ left.HaveRoom right) :
    left.difference right = .error (.noRoom left.shape.1 left.shape.2) := by
  unfold HaveRoom at h
  push Not at h
  obtain ⟨hlayout, hroom⟩ := h
  rcases difference_split left right with ⟨ms, ns, hms, hns, hshapes, -⟩ | ⟨-, hd⟩
  · exact absurd ⟨ms, ns, hms, hns, hshapes⟩ hlayout
  · rw [hd, denseDifference]
    by_cases hleft : left.HasRoom
    · rw [toDense?_of_hasRoom hleft, toDense?_of_not_hasRoom (hroom hleft), ← hshape]
      rfl
    · rw [toDense?_of_not_hasRoom hleft]
      rfl

theorem haveRoom_of_difference {left right d : BlockMatrix K} (hshape : left.shape = right.shape)
    (hd : left.difference right = .ok d) : left.HaveRoom right := by
  by_contra h
  rw [difference_of_not_haveRoom hshape h] at hd
  cases hd

/-! ## The matrices written out -/

variable [LawfulZero K]

theorem toDense_negate (m : BlockMatrix K) : m.negate.toDense = SymMatrix.negate m.toDense := by
  cases m with
  | whole m => rfl
  | blocks parts =>
    have h := Grid.map_blockDiagonal (Expr.negate : Expr K → Expr K) Expr.zero parts
    rw [Expr.negate_zero] at h
    exact h.symm

/-- Matrices of one shape have a difference, if there is room for it. Written out it is the
difference of the matrices written out, and the blocks that it carries have the shapes of those of
the first matrix. -/
theorem difference_of_shape {left right : BlockMatrix K} (hshape : left.shape = right.shape)
    (hroom : left.HaveRoom right) :
    ∃ d, left.difference right = .ok d ∧
      d.toDense = SymMatrix.minus left.toDense right.toDense ∧
      (left.CarriesSquares → d.CarriesSquares) ∧ (left.HasRoom → d.HasRoom) := by
  rcases difference_split left right with ⟨ms, ns, rfl, rfl, hlayout, hd⟩ | ⟨hlayout, hd⟩
  · have hlayout := Grid.forall₂_shape_iff.2 hlayout
    rw [hd]
    refine ⟨blocks (List.zipWith SymMatrix.minus ms ns), ?_, SymMatrix.blockDiagonal_minus hlayout,
      fun hsquare parts hparts d hd => ?_, (hasRoom_congr (SymMatrix.map_shape_minus hlayout)).2⟩
    · rw [SymMatrix.mapM_entrywiseDifference hlayout]
      rfl
    · cases hparts
      have hmem : Grid.shape d ∈ ms.map Grid.shape := by
        rw [← SymMatrix.map_shape_minus hlayout]
        exact List.mem_map_of_mem hd
      obtain ⟨m, hm, hmd⟩ := List.mem_map.1 hmem
      obtain ⟨hrows, hcols⟩ := Prod.mk.inj hmd
      rw [← hrows, ← hcols]
      exact hsquare ms rfl m hm
  · obtain ⟨hleft, hright⟩ := hroom.resolve_left hlayout
    rw [hd, denseDifference_of_shape hshape hleft hright]
    exact ⟨_, rfl, rfl, fun _ => carriesSquares_whole _, fun _ => hasRoom_whole _⟩

end BlockMatrix

/-! ## Sides of an inequality -/

def Operand.dense : Operand K → Operand K
  | zero => zero
  | matrix m => matrix (.whole m.toDense)

namespace Lmi

variable {l : Lmi K}

def dense (l : Lmi K) : Lmi K :=
  ⟨l.lhs.dense, l.rhs.dense, l.kind⟩

theorem greater_dense (l : Lmi K) : l.dense.greater = l.greater.dense := by
  unfold greater dense
  split <;> rfl

theorem lesser_dense (l : Lmi K) : l.dense.lesser = l.lesser.dense := by
  unfold lesser dense
  split <;> rfl

theorem make_eq_ok {lhs rhs : Operand K} {kind : Kind} {check : Bool}
    (h : make lhs rhs kind check = .ok l) :
    l = ⟨lhs, rhs, kind⟩ ∧ checkOperands lhs rhs = .ok () := by
  unfold make at h
  split at h
  · cases h
  split at h
  · cases h
  · cases hcheck : checkOperands lhs rhs with
    | error e =>
      rw [hcheck] at h
      cases h
    | ok u =>
      rw [hcheck] at h
      cases h
      exact ⟨rfl, rfl⟩

theorem checkOperands_of_make {lhs rhs : Operand K} {kind : Kind} {check : Bool}
    (h : make lhs rhs kind check = .ok l) : checkOperands l.lhs l.rhs = .ok () := by
  obtain ⟨rfl, hchecked⟩ := make_eq_ok h
  exact hchecked

theorem make_of_checked {check : Bool} (hchecked : checkOperands l.lhs l.rhs = .ok ())
    (hsymmetric : check = true → l.lhs.isSymmetric = true ∧ l.rhs.isSymmetric = true) :
    make l.lhs l.rhs l.kind check = .ok l := by
  unfold make
  rw [hchecked]
  cases check with
  | false => rfl
  | true =>
    rw [(hsymmetric rfl).1, (hsymmetric rfl).2]
    rfl

theorem built_of_checked {lmis : List (Lmi K)}
    (hchecked : ∀ l ∈ lmis, checkOperands l.lhs l.rhs = .ok ())
    (hsymmetric : ∀ l ∈ lmis, l.lhs.isSymmetric = true ∧ l.rhs.isSymmetric = true) :
    ∀ l ∈ lmis, ∃ lhs rhs kind, make lhs rhs kind true = .ok l :=
  fun l hl =>
    ⟨l.lhs, l.rhs, l.kind, make_of_checked (hchecked l hl) fun _ => hsymmetric l hl⟩

theorem isSymmetric_of_make {lhs rhs : Operand K} {kind : Kind} {check : Bool}
    (h : make lhs rhs kind check = .ok l) (hcheck : check = true) :
    l.lhs.isSymmetric = true ∧ l.rhs.isSymmetric = true := by
  obtain ⟨rfl, -⟩ := make_eq_ok h
  subst hcheck
  unfold make at h
  split at h
  · cases h
  split at h
  · cases h
  · rename_i hleft hright
    exact ⟨by simpa using hleft, by simpa using hright⟩

theorem isSymmetric_of_isSide {m : BlockMatrix K} (hm : l.IsSide m)
    (h : l.lhs.isSymmetric = true ∧ l.rhs.isSymmetric = true) : m.isSymmetric = true := by
  rcases hm with hm | hm
  · simpa [hm, Operand.isSymmetric, Operand.matrix?] using h.1
  · simpa [hm, Operand.isSymmetric, Operand.matrix?] using h.2

theorem isSquare_of_make {lhs rhs : Operand K} {kind : Kind} (h : make lhs rhs kind true = .ok l)
    {m : BlockMatrix K} (hm : l.IsSide m) : m.IsSquare :=
  BlockMatrix.isSquare_of_isSymmetric (isSymmetric_of_isSide hm (isSymmetric_of_make h rfl))

/-! ## Canonical matrices -/

theorem canonicalMatrix_of_not_hasRoom (hchecked : checkOperands l.lhs l.rhs = .ok ())
    (h : ¬ l.HasRoom) : ∃ rows cols, l.canonicalMatrix = .error (.noRoom rows cols) := by
  unfold HasRoom at h
  push Not at h
  obtain ⟨a, b, ha, hb, hnone⟩ := h
  have hsides := checkOperands_sides hchecked
  unfold canonicalMatrix
  rw [ha, hb] at hsides ⊢
  rcases checkOperands_eq_ok hsides with ⟨_, _, ⟨⟩, ⟨⟩, hshape⟩ | ⟨_, -, ⟨⟩⟩ | ⟨_, ⟨⟩, -⟩
  exact ⟨_, _, BlockMatrix.difference_of_not_haveRoom hshape hnone⟩

/-- Rows without columns and columns without rows, against the same in the other order. -/
def strips (rows cols : Nat) (kind : Kind) : Lmi K :=
  let tall := SymMatrix.zeros rows 0
  let wide := SymMatrix.zeros 0 cols
  ⟨.matrix (.blocks [tall, wide]), .matrix (.blocks [wide, tall]), kind⟩

/-- Strips hold no entry, and are not compared unless a matrix of their shape fits. -/
theorem not_hasRoom_strips {rows cols : Nat} (kind : Kind)
    (h : ¬ Grid.Fits Grid.entryLimit 0 rows cols) :
    ¬ (strips rows cols kind : Lmi K).HasRoom := by
  let tall : SymMatrix K := SymMatrix.zeros rows 0
  let wide : SymMatrix K := SymMatrix.zeros 0 cols
  have hpos : ¬ (rows = 0 ∧ cols = 0) := by
    rintro ⟨rfl, rfl⟩
    exact h (Grid.fits_of_le le_rfl le_rfl)
  have hunlike : [tall, wide].map Grid.shape ≠ [wide, tall].map Grid.shape := by
    intro hsame
    obtain ⟨hrows, hcols⟩ := Prod.mk.inj (List.cons.inj hsame).1
    exact hpos ⟨hrows, hcols.symm⟩
  have htall : ¬ (BlockMatrix.blocks [tall, wide]).HasRoom := by
    simpa [BlockMatrix.HasRoom, Grid.held, tall, wide, SymMatrix.zeros, Grid.tabulate] using h
  have hwide : ¬ (BlockMatrix.blocks [wide, tall]).HasRoom := by
    simpa [BlockMatrix.HasRoom, Grid.held, tall, wide, SymMatrix.zeros, Grid.tabulate] using h
  intro hroom
  cases hkind : kind.isPositive with
  | true =>
    refine BlockMatrix.not_haveRoom_of_shapes hunlike htall (hroom _ _ ?_ ?_)
    · exact if_pos hkind
    · exact if_pos hkind
  | false =>
    have hnot : ¬ kind.isPositive = true := by simp [hkind]
    refine BlockMatrix.not_haveRoom_of_shapes hunlike.symm hwide (hroom _ _ ?_ ?_)
    · exact if_neg hnot
    · exact if_neg hnot

theorem inWords_strips {rows cols : Nat} (hrows : rows < UInt64.size) (hcols : cols < UInt64.size)
    (kind : Kind) : (strips rows cols kind : Lmi K).InWords := by
  rintro s (⟨⟨⟩⟩ | ⟨⟨⟩⟩) <;>
    simpa [BlockMatrix.InWords, BlockMatrix.shape, SymMatrix.zeros, Grid.tabulate] using
      And.intro hrows hcols

theorem hasRoom_of_make {lhs rhs : Operand K} {kind : Kind} (h : make lhs rhs kind true = .ok l) :
    l.HasRoom ∧ ∀ s, l.IsSide s → s.HasRoom := by
  have hside : ∀ s, l.IsSide s → s.HasRoom := fun s hs => (isSquare_of_make h hs).carried.hasRoom
  exact ⟨hasRoom_of_sides hside, hside⟩

variable [LawfulZero K]

/-- A checked inequality with room has a canonical matrix, of the shape of the sides. With the
sides written out it has the same one written out. It carries square blocks, and can be written
out, if the sides do and can. -/
theorem exists_canonicalMatrix (hchecked : checkOperands l.lhs l.rhs = .ok ())
    (hroom : l.HasRoom) :
    ∃ m, l.canonicalMatrix = .ok m ∧ l.dense.canonicalMatrix = .ok (.whole m.toDense) ∧
      (∀ s, l.IsSide s → m.shape = s.shape) ∧
      ((∀ s, l.IsSide s → s.CarriesSquares) → m.CarriesSquares) ∧
      ((∀ s, l.IsSide s → s.HasRoom) → m.HasRoom) := by
  simp only [isSide_iff]
  unfold canonicalMatrix
  rw [greater_dense, lesser_dense]
  rcases checkOperands_eq_ok (checkOperands_sides hchecked) with
    ⟨a, b, ha, hb, hshape⟩ | ⟨a, ha, hb⟩ | ⟨b, ha, hb⟩ <;> rw [ha, hb]
  · obtain ⟨d, hd, hdense, hsquare, hwrite⟩ :=
      BlockMatrix.difference_of_shape hshape (hroom a b ha hb)
    have hwritten : (BlockMatrix.whole a.toDense).difference (.whole b.toDense) =
        .ok (.whole d.toDense) := by
      rw [hdense]
      exact BlockMatrix.denseDifference_of_shape (BlockMatrix.shape_toDense_congr hshape)
        (BlockMatrix.hasRoom_whole _) (BlockMatrix.hasRoom_whole _)
    have hd' := BlockMatrix.shape_of_toDense_eq_minus hdense
    refine ⟨d, hd, hwritten, fun s hs => ?_, fun hsides => hsquare (hsides a (.inl rfl)),
      fun hsides => hwrite (hsides a (.inl rfl))⟩
    rcases hs with hs | hs <;> cases hs
    · exact hd'
    · exact hd'.trans hshape
  · refine ⟨a, rfl, rfl, fun s hs => ?_, fun hsides => hsides a (.inl rfl),
      fun hsides => hsides a (.inl rfl)⟩
    rcases hs with hs | hs <;> cases hs
    rfl
  · refine ⟨b.negate, rfl, ?_, fun s hs => ?_, fun hsides => (hsides b (.inr rfl)).negate,
      fun hsides => (hsides b (.inr rfl)).negate⟩
    · rw [BlockMatrix.toDense_negate]
      rfl
    · rcases hs with hs | hs <;> cases hs
      exact b.shape_negate

theorem exists_canonicalMatrix_iff (hchecked : checkOperands l.lhs l.rhs = .ok ()) :
    (∃ m, l.canonicalMatrix = .ok m) ↔ l.HasRoom := by
  refine ⟨fun ⟨m, hm⟩ => ?_, fun hroom => ?_⟩
  · by_contra h
    obtain ⟨rows, cols, hnone⟩ := canonicalMatrix_of_not_hasRoom hchecked h
    rw [hm] at hnone
    cases hnone
  · exact (exists_canonicalMatrix hchecked hroom).imp fun _ hm => hm.1

theorem shape_canonicalMatrix (hchecked : checkOperands l.lhs l.rhs = .ok ()) {m : BlockMatrix K}
    (hm : l.canonicalMatrix = .ok m) {s : BlockMatrix K} (hs : l.IsSide s) : m.shape = s.shape := by
  obtain ⟨m', hm', -, hshape, -⟩ :=
    exists_canonicalMatrix hchecked ((exists_canonicalMatrix_iff hchecked).1 ⟨m, hm⟩)
  obtain rfl : m' = m := Except.ok.inj (hm'.symm.trans hm)
  exact hshape s hs

theorem inWords_canonicalMatrix (hchecked : checkOperands l.lhs l.rhs = .ok ())
    (hwords : l.InWords) {m : BlockMatrix K} (hm : l.canonicalMatrix = .ok m) : m.InWords := by
  obtain ⟨s, hs⟩ := exists_isSide hchecked
  unfold BlockMatrix.InWords
  rw [shape_canonicalMatrix hchecked hm hs]
  exact hwords s hs

theorem isSquare_canonicalMatrix (hchecked : checkOperands l.lhs l.rhs = .ok ())
    (hsquare : ∀ s, l.IsSide s → s.IsSquare) {m : BlockMatrix K} (hm : l.canonicalMatrix = .ok m) :
    m.IsSquare := by
  obtain ⟨m', hm', -, -, hcarried, -⟩ :=
    exists_canonicalMatrix hchecked ((exists_canonicalMatrix_iff hchecked).1 ⟨m, hm⟩)
  obtain rfl : m' = m := Except.ok.inj (hm'.symm.trans hm)
  obtain ⟨s, hs⟩ := exists_isSide hchecked
  refine ⟨?_, hcarried fun s hs => (hsquare s hs).carried⟩
  rw [shape_canonicalMatrix hchecked hm hs]
  exact (hsquare s hs).shape

end Lmi

end Semidefinite
