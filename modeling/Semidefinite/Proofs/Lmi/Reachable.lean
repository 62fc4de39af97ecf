import Semidefinite.Lmi.Expanded
import Semidefinite.Proofs.Lmi.Rewriting
import Semidefinite.Proofs.Lmi.Symmetry
import Semidefinite.Proofs.Pencil
import Semidefinite.Proofs.Storage.Backends

/-!
# Inequalities stay valid

`Lmi.Reachable` is every inequality that can be built, and every canonical form of
one that can be reached. What building checks is kept by rewriting, which does not
check it again: the operands fit (`Reachable.isSound`), and symmetric sides have a
symmetric canonical matrix. So a rewriting or an expansion of a reachable inequality
faults for want of room only (`Reachable.stays_valid`).
-/

namespace Semidefinite

namespace Lmi

section Valid
variable {K : Type}

/-- A side is a matrix, and matrices on both sides have one shape. -/
structure IsValid (l : Lmi K) : Prop where
  exists_side : ∃ m, l.IsSide m
  shape_eq : ∀ a b, l.lhs = .matrix a → l.rhs = .matrix b → a.shape = b.shape

theorem isValid_of_checkOperands {l : Lmi K} (h : checkOperands l.lhs l.rhs = .ok ()) :
    l.IsValid := by
  refine ⟨exists_isSide h, fun a b ha hb => ?_⟩
  rcases checkOperands_eq_ok h with ⟨a', b', ha', hb', hshape⟩ | ⟨a', -, hb'⟩ | ⟨b', ha', -⟩
  · obtain rfl : a' = a := Operand.matrix.inj (ha'.symm.trans ha)
    obtain rfl : b' = b := Operand.matrix.inj (hb'.symm.trans hb)
    exact hshape
  · cases hb'.symm.trans hb
  · cases ha'.symm.trans ha

end Valid

/-- The inequalities that are built with or without a check of symmetry, and what rewriting makes
of them. -/
inductive Reachable {K : Type} [Scalar K] (check : Bool) : Lmi K → Prop
  | make {lhs rhs : Operand K} {kind : Kind} {l : Lmi K} :
      make lhs rhs kind check = .ok l → Reachable check l
  | canonical {l c : Lmi K} : Reachable check l → l.canonical = .ok c → Reachable check c
  | intoCanonical {l c : Lmi K} : Reachable check l → l.intoCanonical = .ok c → Reachable check c

/-- What building an inequality makes sure of. -/
structure IsSound {K : Type} [Scalar K] (check : Bool) (l : Lmi K) : Prop where
  checked : checkOperands l.lhs l.rhs = .ok ()
  symmetric : check = true → l.lhs.isSymmetric = true ∧ l.rhs.isSymmetric = true

variable {check : Bool} {l c : Lmi ℚ}

theorem IsSound.canonical (h : l.IsSound check) (hc : l.canonical = .ok c) : c.IsSound check := by
  rw [canonical_eq_map, Except.map_eq_ok] at hc
  obtain ⟨m, hm, rfl⟩ := hc
  exact ⟨rfl, fun hcheck => ⟨isSymmetric_canonicalMatrix (h.symmetric hcheck) hm, rfl⟩⟩

theorem Reachable.isSound (h : Reachable check l) : l.IsSound check := by
  induction h with
  | make hmake => exact ⟨checkOperands_of_make hmake, isSymmetric_of_make hmake⟩
  | canonical _ hc ih => exact ih.canonical hc
  | intoCanonical _ hc ih =>
    rw [intoCanonical_eq_canonical] at hc
    exact ih.canonical hc

theorem InWords.canonical (h : l.InWords) (hchecked : checkOperands l.lhs l.rhs = .ok ())
    (hc : l.canonical = .ok c) : c.InWords := by
  rw [canonical_eq_map, Except.map_eq_ok] at hc
  obtain ⟨m, hm, rfl⟩ := hc
  rintro s (⟨⟨⟩⟩ | ⟨⟨⟩⟩)
  exact inWords_canonicalMatrix hchecked h hm

theorem IsSound.hasRoom (h : l.IsSound true) {s : BlockMatrix ℚ} (hs : l.IsSide s) : s.HasRoom :=
  (BlockMatrix.isSquare_of_isSymmetric (isSymmetric_of_isSide hs (h.symmetric rfl))).carried.hasRoom

/-! ## Faults of expansions -/

/-- A side contains a variable and cannot be written out. -/
def LacksRoom (l : Lmi ℚ) (vars : List Symbol) (f : Fault) : Prop :=
  ∃ s, l.IsSide s ∧ (∃ x ∈ vars, x ∈ s.freeSymbols) ∧ ¬ s.HasRoom ∧
    f = .noRoom s.shape.1 s.shape.2

theorem faultsOnly_ofOperand (o : Operand ℚ) (vars : List Symbol) :
    (ExpandedOperand.ofOperand o vars).FaultsOnly fun f => ∃ m, o = .matrix m ∧
      (∃ x ∈ vars, x ∈ m.freeSymbols) ∧ ¬ m.HasRoom ∧ f = .noRoom m.shape.1 m.shape.2 := by
  cases o with
  | zero => exact (Lowering.neverFaults_pure _).faultsOnly _
  | matrix m =>
    simp only [ExpandedOperand.ofOperand]
    split
    · rename_i hany
      refine Lowering.FaultsOnly.bind (Lowering.faultsOnly_ofFault fun f hf => ?_) fun _ d _ _ => ?_
      · have hnone : ¬ m.HasRoom := by
          intro hroom
          rw [BlockMatrix.toDense?_of_hasRoom hroom] at hf
          cases hf
        rw [BlockMatrix.toDense?_of_not_hasRoom hnone] at hf
        obtain ⟨x, hx, hvars⟩ := List.any_eq_true.1 hany
        exact ⟨m, rfl, ⟨x, List.contains_iff_mem.1 hvars, hx⟩, hnone, (Except.error.inj hf).symm⟩
      · have hlinear : (LinearMatrix.ofMatrix d vars).NeverFaults :=
          (Pencil.neverFaults_extract d vars).bind fun _ _ _ _ => Lowering.neverFaults_pure _
        exact (hlinear.map _).faultsOnly _
    · exact (Lowering.neverFaults_pure _).faultsOnly _

/-- An expansion reads entries of the matrix and writes cells of its shape, no others. -/
theorem faultsOnly_expanded (l : Lmi ℚ) (vars : List Symbol) :
    (l.expanded vars).FaultsOnly (l.LacksRoom vars) := by
  refine Lowering.FaultsOnly.bind ?_ fun _ _ _ _ => Lowering.FaultsOnly.bind ?_ fun _ _ _ _ =>
    (Lowering.neverFaults_pure _).faultsOnly _
  · exact (faultsOnly_ofOperand l.lhs vars).imp fun f ⟨m, hm, h⟩ => ⟨m, .inl hm, h⟩
  · exact (faultsOnly_ofOperand l.rhs vars).imp fun f ⟨m, hm, h⟩ => ⟨m, .inr hm, h⟩

/-- Every inequality that can be reached is valid. It has a canonical matrix exactly if there is
room for it, and faults for want of room only; there is room if the inequality that was built passed
the check of symmetry. Then it has a canonical form, which can be reached again and would pass the
check if that did. Its expansion faults for want of room only. -/
theorem Reachable.stays_valid (h : Reachable check l) (hwords : l.InWords) :
    l.IsValid ∧
    ((∃ m, l.canonicalMatrix = .ok m) ↔ l.HasRoom) ∧
    (∀ fault, l.canonicalMatrix = .error fault → ∃ rows cols, fault = .noRoom rows cols) ∧
    (∀ m, l.canonicalMatrix = .ok m → ∃ c, l.canonical = .ok c ∧ l.intoCanonical = .ok c ∧
      Reachable check c ∧ c.InWords ∧
      (check = true → Lmi.make c.lhs .zero c.kind true = .ok c)) ∧
    (∀ vars supply fault, ((l.expanded vars).run supply).1 = .error (.fault fault) →
      l.LacksRoom vars fault) ∧
    (check = true → l.HasRoom ∧ ∀ s, l.IsSide s → s.HasRoom) := by
  have hsound := h.isSound
  refine ⟨isValid_of_checkOperands hsound.checked, exists_canonicalMatrix_iff hsound.checked,
    fun fault hfault => ?_, fun m hm => ?_, fun vars supply fault hrun => ?_, ?_⟩
  · have hnone : ¬ l.HasRoom := by
      intro hroom
      obtain ⟨m, hm⟩ := (exists_canonicalMatrix_iff hsound.checked).2 hroom
      rw [hm] at hfault
      cases hfault
    obtain ⟨rows, cols, hrows⟩ := canonicalMatrix_of_not_hasRoom hsound.checked hnone
    exact ⟨rows, cols, Except.error.inj (hfault.symm.trans hrows)⟩
  · have hcanonical := canonical_eq_ok hm
    refine ⟨_, hcanonical, ?_, h.canonical hcanonical, hwords.canonical hsound.checked hcanonical,
      fun hcheck => ?_⟩
    · rw [intoCanonical_eq_canonical, hcanonical]
    · have hagain := hsound.canonical hcanonical
      exact make_of_checked hagain.checked fun _ => hagain.symmetric hcheck
  · exact faultsOnly_expanded l vars supply fault _ (Prod.ext hrun rfl)
  · rintro rfl
    have hside : ∀ s, l.IsSide s → s.HasRoom := fun _ hs => hsound.hasRoom hs
    exact ⟨hasRoom_of_sides hside, hside⟩

/-- The canonical form of `diag(x, m) ≺ diag(2, y, y)`, where the matrix `m` of rows `(1, x * y)`
and `(y * x, 1)` is symmetric only once multiplied out, and the blocks of the two sides differ. -/
theorem Reachable.stays_valid_of_unlike_blocks :
    let x : Expr ℚ := .symbol { name := "x" }
    let y : Expr ℚ := .symbol { name := "y" }
    let m : SymMatrix ℚ := Grid.tabulate 2 2 fun i j =>
      if i < j then .product [x, y] else if j < i then .product [y, x] else .const 1
    let lhs : Operand ℚ := .matrix (.blocks [SymMatrix.diagonal [x], m])
    let rhs : Operand ℚ :=
      .matrix (.blocks [SymMatrix.diagonal [.const 2, y], SymMatrix.diagonal [y]])
    let l : Lmi ℚ := ⟨lhs, rhs, .nd⟩
    ∃ c, Lmi.make lhs rhs .nd true = .ok l ∧ l.canonical = .ok c ∧ Reachable true c ∧
      c.InWords ∧ c.IsValid ∧
      (∃ d, c.canonical = .ok d ∧ c.intoCanonical = .ok d ∧ Reachable true d ∧
        Lmi.make d.lhs .zero d.kind true = .ok d) ∧
      ∀ vars supply fault, ((c.expanded vars).run supply).1 ≠ .error (.fault fault) := by
  intro x y m lhs rhs l
  have hsymmetric : l.lhs.isSymmetric = true ∧ l.rhs.isSymmetric = true := by
    decide +kernel
  have hchecked : checkOperands l.lhs l.rhs = .ok () := rfl
  have hmake : Lmi.make l.lhs l.rhs l.kind true = .ok l :=
    make_of_checked hchecked fun _ => hsymmetric
  have hwords : l.InWords := inWords_of_operands (by decide +kernel)
  obtain ⟨c, hc⟩ : ∃ c, l.canonical = .ok c := by
    obtain ⟨d, hd⟩ := (exists_canonicalMatrix_iff hchecked).2 (hasRoom_of_make hmake).1
    exact ⟨_, canonical_eq_ok hd⟩
  have hreachable := (Reachable.make hmake).canonical hc
  have hcwords := hwords.canonical hchecked hc
  obtain ⟨hvalid, hexists, -, hagain, hexpanded, hroom⟩ := hreachable.stays_valid hcwords
  obtain ⟨hlmi, hsides⟩ := hroom rfl
  obtain ⟨d, hd⟩ := hexists.2 hlmi
  obtain ⟨e, he, hinto, hreach, -, hbuilt⟩ := hagain d hd
  refine ⟨c, hmake, hc, hreachable, hcwords, hvalid, ⟨e, he, hinto, hreach, hbuilt rfl⟩,
    fun vars supply fault hrun => ?_⟩
  obtain ⟨s, hs, -, hnone, -⟩ := hexpanded vars supply fault hrun
  exact hnone (hsides s hs)

/-- An inequality that was built without the check and whose canonical form is a fault. -/
theorem Reachable.not_valid_of_unlike_strips :
    let l : Lmi ℚ := strips 4 (2 ^ 62) .nd
    Reachable false l ∧ l.InWords ∧ ∃ rows cols, l.canonical = .error (.noRoom rows cols) := by
  intro l
  have hwords : l.InWords := inWords_strips (by decide) (by decide) .nd
  obtain ⟨rows, cols, hfault⟩ :=
    canonicalMatrix_of_not_hasRoom (l := l) rfl (not_hasRoom_strips .nd (by decide))
  have hmake : Lmi.make l.lhs l.rhs l.kind false = .ok l := rfl
  refine ⟨.make hmake, hwords, rows, cols, ?_⟩
  rw [canonical_eq_map, hfault]
  rfl

end Lmi

end Semidefinite
