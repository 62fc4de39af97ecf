import Semidefinite.Proofs.Cutting.Modes
import Semidefinite.Proofs.LinearMatrix
import Semidefinite.Proofs.Lmi.Reachable

/-!
# Expanding an inequality

A side that contains a variable is written out and expanded, any other side is left as
it is (`ExpandedOperand.ExpandsTo`). Whether a side contains a variable is a matter of
the symbols in it, even of those that cancel (`BlockMatrix.Contains`). Where there is
room for the sides, an expansion fails exactly if one that contains a variable has an
entry that is not affine, and each side keeps its value (`Lmi.expanded_exact`).
-/

namespace Semidefinite

variable {K : Type}

/-! ## Sides with variables -/

namespace BlockMatrix

/-- One of the variables occurs in an entry. -/
def Contains (m : BlockMatrix K) (vars : List Symbol) : Prop :=
  ∃ p ∈ m.parts, ∃ i j e, Grid.entry? p i j = some e ∧ ∃ s ∈ vars, s ∈ e.occurrences

theorem any_freeSymbols_iff {m : BlockMatrix K} {vars : List Symbol} :
    m.freeSymbols.any vars.contains = true ↔ m.Contains vars := by
  simp only [List.any_eq_true, List.contains_iff_mem, mem_freeSymbols_iff_parts,
    SymMatrix.mem_freeSymbols]
  constructor
  · rintro ⟨s, ⟨p, hp, i, j, e, he, hs⟩, hvars⟩
    exact ⟨p, hp, i, j, e, he, s, hvars, hs⟩
  · rintro ⟨p, hp, i, j, e, he, s, hvars, hs⟩
    exact ⟨s, ⟨p, hp, i, j, e, he, hs⟩, hvars⟩

def IsAffine (m : BlockMatrix ℚ) (vars : List Symbol) : Prop :=
  ∀ p ∈ m.parts, ∀ i j e, Grid.entry? p i j = some e → AffineIn vars e.poly

theorem exists_entry_toDense [Scalar K] {m : BlockMatrix K} {p : SymMatrix K} (hp : p ∈ m.parts)
    {i j : Nat} {e : Expr K} (he : Grid.entry? p i j = some e) :
    ∃ r c, Grid.entry? m.toDense r c = some e := by
  cases m with
  | whole m =>
    obtain rfl := List.mem_singleton.1 hp
    exact ⟨i, j, he⟩
  | blocks parts =>
    have hexists : ∃ g ∈ parts, ∃ i j, Grid.entry? g i j = some e := ⟨p, hp, i, j, he⟩
    obtain ⟨r, c, hcell⟩ := Grid.exists_diagonalCell?_iff.2 hexists
    have hin : r < (parts.map Grid.rows).sum ∧ c < (parts.map Grid.cols).sum := by
      by_contra hout
      rw [Grid.diagonalCell?_eq_none hout] at hcell
      cases hcell
    refine ⟨r, c, ?_⟩
    rw [toDense, SymMatrix.blockDiagonal, Grid.entry?_blockDiagonal _ _ hin, hcell,
      Option.getD_some]

/-- The zeros between blocks are affine. -/
theorem isAffine_iff_toDense {m : BlockMatrix ℚ} {vars : List Symbol} :
    m.IsAffine vars ↔ ∀ i j e, Grid.entry? m.toDense i j = some e → AffineIn vars e.poly := by
  constructor
  · intro h i j e he
    cases m with
    | whole m => exact h m (List.mem_singleton_self m) i j e he
    | blocks parts =>
      have hzero : AffineIn vars (Expr.zero : Expr ℚ).poly := fun d hd => by
        simp [Expr.zero, Expr.poly] at hd
      exact SymMatrix.allEntries_blockDiagonal (P := fun e => AffineIn vars e.poly) hzero h i j e he
  · intro h p hp i j e he
    obtain ⟨r, c, hentry⟩ := exists_entry_toDense hp he
    exact h r c e hentry

theorem keysFaithful_toDense {m : BlockMatrix ℚ} (h : ∀ p ∈ m.parts, SymMatrix.KeysFaithful p) :
    SymMatrix.KeysFaithful m.toDense := by
  cases m with
  | whole m => exact h m (List.mem_singleton_self m)
  | blocks parts => exact SymMatrix.keysFaithful_blockDiagonal h

end BlockMatrix

/-! ## One side -/

/-- How many nonces are drawn to expand a side. -/
def Operand.drawCount [Scalar K] (o : Operand K) (vars : List Symbol) : Nat :=
  match o with
  | .zero => 0
  | .matrix m => if m.freeSymbols.any vars.contains then SymMatrix.drawCount m.toDense else 0

/-- The value `Σ xₖ · Cₖ + C₀`. -/
def LinearMatrix.eval (l : LinearMatrix ℚ) (x : Symbol → ℚ) : Grid ℚ :=
  Grid.tabulate l.shape.1 l.shape.2 fun i j => l.valueAt x i j

theorem LinearMatrix.eval_eq_map {l : LinearMatrix ℚ} {m : SymMatrix ℚ} (hshape : l.shape = m.shape)
    {x : Symbol → ℚ} (h : ∀ i j e, m.entry? i j = some e → l.valueAt x i j = e.eval x) :
    l.eval x = m.map (Expr.eval x) := by
  obtain ⟨hrows, hcols⟩ := Prod.mk.inj hshape
  refine Grid.ext_entry? hrows hcols fun i j hi hj => ?_
  have hin : i < l.shape.1 ∧ j < l.shape.2 := ⟨hi, hj⟩
  have hentry := m.entry?_eq_some (i := i) (j := j) (by rwa [hshape] at hin)
  rw [eval, Grid.entry?_tabulate _ hin, Grid.entry?_map, hentry, Option.map_some, h i j _ hentry]

namespace ExpandedOperand

/-- What a side is expanded to. -/
inductive ExpandsTo (vars : List Symbol) : Operand ℚ → ExpandedOperand ℚ → Prop
  | zero : ExpandsTo vars .zero .zero
  | symbolic {m : BlockMatrix ℚ} : ¬ m.Contains vars → ExpandsTo vars (.matrix m) (.symbolic m)
  | linear {m : BlockMatrix ℚ} {l : LinearMatrix ℚ} : m.Contains vars →
      l.terms.map Prod.fst = vars →
      (∀ c ∈ l.terms.map Prod.snd ++ l.constant.toList, c.shape = m.shape) →
      (∀ x : Symbol → ℚ, l.eval x = Grid.map (Expr.eval x) m.toDense) →
      ExpandsTo vars (.matrix m) (.linear l)

variable {o : Operand ℚ} {vars : List Symbol} {supply after : NonceSupply} {w : ExpandedOperand ℚ}

/-- A side without variables can only be left as it is. -/
theorem ExpandsTo.eq_symbolic {m : BlockMatrix ℚ} (h : ExpandsTo vars (.matrix m) w)
    (hnone : ¬ m.Contains vars) : w = .symbolic m := by
  cases h with
  | symbolic => rfl
  | linear hcontains => exact absurd hcontains hnone

/-- The nonces that are drawn for a side are none of the variables, and none of its symbols. -/
def IsFresh (o : Operand ℚ) (vars : List Symbol) (supply : NonceSupply) : Prop :=
  ∀ k < o.drawCount vars, (supply.advance k).peek ∉ vars ∧ (supply.advance k).peek ∉ o.freeSymbols

theorem isFresh_toDense {m : BlockMatrix ℚ} (hcontains : m.Contains vars)
    (h : IsFresh (.matrix m) vars supply) : SymMatrix.IsFresh m.toDense vars supply := by
  intro k hk
  have hcount : (Operand.matrix m).drawCount vars = SymMatrix.drawCount m.toDense :=
    if_pos (BlockMatrix.any_freeSymbols_iff.2 hcontains)
  obtain ⟨hvars, hsymbols⟩ := h k (hcount ▸ hk)
  refine ⟨hvars, fun i j e he hs => hsymbols ?_⟩
  exact BlockMatrix.mem_freeSymbols_toDense (SymMatrix.mem_freeSymbols.2 ⟨i, j, e, he, hs⟩)

theorem run_ofOperand_of_contains {m : BlockMatrix ℚ} (h : m.Contains vars) :
    (ofOperand (.matrix m) vars).run supply = (.ok w, after) ↔ m.HasRoom ∧
      ∃ l, (LinearMatrix.ofMatrix m.toDense vars).run supply = (.ok l, after) ∧ w = .linear l := by
  have hrun : ofOperand (.matrix m) vars = (do
      let dense ← Lowering.ofFault m.toDense?
      linear <$> LinearMatrix.ofMatrix dense vars) :=
    if_pos (BlockMatrix.any_freeSymbols_iff.2 h)
  rw [hrun, Lowering.run_bind_eq_ok]
  simp only [Lowering.run_ofFault_eq_ok, BlockMatrix.toDense?_eq_ok_iff]
  constructor
  · rintro ⟨_, _, ⟨⟨hroom, rfl⟩, rfl⟩, hlinear⟩
    rw [map_eq_pure_bind, Lowering.run_bind_eq_ok] at hlinear
    obtain ⟨l, between, hl, hw⟩ := hlinear
    obtain ⟨rfl, rfl⟩ := Lowering.run_pure_eq_ok.1 hw
    exact ⟨hroom, l, hl, rfl⟩
  · rintro ⟨hroom, l, hl, rfl⟩
    refine ⟨_, _, ⟨⟨hroom, rfl⟩, rfl⟩, ?_⟩
    rw [map_eq_pure_bind, Lowering.run_bind_eq_ok]
    exact ⟨l, after, hl, Lowering.run_pure_eq_ok.2 ⟨rfl, rfl⟩⟩

theorem ofOperand_of_not_contains {m : BlockMatrix ℚ} (h : ¬ m.Contains vars) :
    ofOperand (.matrix m) vars = pure (symbolic m) :=
  if_neg fun hany => h (BlockMatrix.any_freeSymbols_iff.1 hany)

theorem ofOperand_supply (h : (ofOperand o vars).run supply = (.ok w, after)) :
    after = supply.advance (o.drawCount vars) := by
  cases o with
  | zero =>
    obtain ⟨-, rfl⟩ := Lowering.run_pure_eq_ok.1 h
    exact (NonceSupply.advance_zero _).symm
  | matrix m =>
    by_cases hcontains : m.Contains vars
    · obtain ⟨-, l, hl, -⟩ := (run_ofOperand_of_contains hcontains).1 h
      obtain ⟨p, hp, -⟩ := LinearMatrix.run_ofMatrix_eq_ok.1 hl
      rw [Pencil.extract_supply hp, Operand.drawCount,
        if_pos (BlockMatrix.any_freeSymbols_iff.2 hcontains)]
    · rw [ofOperand_of_not_contains hcontains] at h
      obtain ⟨-, rfl⟩ := Lowering.run_pure_eq_ok.1 h
      rw [Operand.drawCount, if_neg fun hany => hcontains (BlockMatrix.any_freeSymbols_iff.1 hany),
        NonceSupply.advance_zero]

variable (hfresh : IsFresh o vars supply)
  (hkeys : ∀ m, o = .matrix m → ∀ p ∈ m.parts, SymMatrix.KeysFaithful p)
include hfresh hkeys

theorem expandsTo_of_ofOperand (hvars : vars.Nodup)
    (h : (ofOperand o vars).run supply = (.ok w, after)) : ExpandsTo vars o w := by
  cases o with
  | zero =>
    obtain ⟨rfl, -⟩ := Lowering.run_pure_eq_ok.1 h
    exact .zero
  | matrix m =>
    by_cases hcontains : m.Contains vars
    · obtain ⟨-, l, hl, rfl⟩ := (run_ofOperand_of_contains hcontains).1 h
      have hdense := BlockMatrix.keysFaithful_toDense (hkeys m rfl)
      obtain ⟨p, rfl, hwell, hshape, hentries⟩ :=
        LinearMatrix.ofMatrix_eq_ok hvars (isFresh_toDense hcontains hfresh) hdense hl
      have hne : vars ≠ [] := by
        obtain ⟨-, -, -, -, -, -, s, hs, -⟩ := hcontains
        exact List.ne_nil_of_mem hs
      refine .linear hcontains (LinearMatrix.map_fst_terms hwell) (fun c hc => ?_) fun x => ?_
      · rw [LinearMatrix.shape_of_mem_ofPencil hwell hc, hshape, BlockMatrix.shape_toDense]
      · exact LinearMatrix.eval_eq_map ((LinearMatrix.shape_ofPencil hwell (.inl hne)).trans hshape)
          fun i j e he => (hentries i j e he).2 x
    · rw [ofOperand_of_not_contains hcontains] at h
      obtain ⟨rfl, -⟩ := Lowering.run_pure_eq_ok.1 h
      exact .symbolic hcontains

/-- A side that contains a variable is expanded exactly if there is room for it and it is affine,
any other always. -/
theorem exists_ofOperand_iff : (∃ w after, (ofOperand o vars).run supply = (.ok w, after)) ↔
    ∀ m, o = .matrix m → m.Contains vars → m.HasRoom ∧ m.IsAffine vars := by
  cases o with
  | zero => exact iff_of_true ⟨.zero, supply, rfl⟩ nofun
  | matrix m =>
    by_cases hcontains : m.Contains vars
    · have hlinear := LinearMatrix.exists_ofMatrix_iff (isFresh_toDense hcontains hfresh)
        (BlockMatrix.keysFaithful_toDense (hkeys m rfl))
      rw [← BlockMatrix.isAffine_iff_toDense] at hlinear
      constructor
      · rintro ⟨w, after, h⟩ _ ⟨⟩ _
        obtain ⟨hroom, l, hl, -⟩ := (run_ofOperand_of_contains hcontains).1 h
        exact ⟨hroom, hlinear.1 ⟨l, after, hl⟩⟩
      · intro h
        obtain ⟨hroom, haffine⟩ := h m rfl hcontains
        obtain ⟨l, after, hl⟩ := hlinear.2 haffine
        exact ⟨.linear l, after, (run_ofOperand_of_contains hcontains).2 ⟨hroom, l, hl, rfl⟩⟩
    · rw [ofOperand_of_not_contains hcontains]
      refine iff_of_true ⟨.symbolic m, supply, rfl⟩ ?_
      rintro _ ⟨⟩ h
      exact absurd h hcontains

end ExpandedOperand

/-! ## Both sides -/

namespace Lmi

open ExpandedOperand

/-- None of the nonces that expanding both sides draws is a variable or a symbol of a side. -/
def FreshlyExpanded [Scalar K] (l : Lmi K) (vars : List Symbol) (supply : NonceSupply) : Prop :=
  ∀ k < l.lhs.drawCount vars + l.rhs.drawCount vars,
    (supply.advance k).peek ∉ vars ++ l.freeSymbols

/-- No nonce is met again as long as the serial numbers have not started again. -/
theorem freshlyExpanded_of_drawn [Scalar K] {l : Lmi K} {vars : List Symbol} {supply : NonceSupply}
    (hdrawn : ∀ s ∈ vars ++ l.freeSymbols, ∀ n, s.serial = some n → n < supply.next)
    (hroom : supply.next.toNat + (l.lhs.drawCount vars + l.rhs.drawCount vars) ≤ 2 ^ 32) :
    l.FreshlyExpanded vars supply :=
  fun _ hk => NonceSupply.peek_advance_not_mem hdrawn (by omega)

section Expanded
variable {l : Lmi ℚ} {vars : List Symbol} {supply after : NonceSupply} {w : ExpandedLmi ℚ}

theorem run_expanded_eq_ok : (l.expanded vars).run supply = (.ok w, after) ↔
    ∃ between, (ofOperand l.lhs vars).run supply = (.ok w.lhs, between) ∧
      (ofOperand l.rhs vars).run between = (.ok w.rhs, after) ∧ w.kind = l.kind := by
  unfold expanded
  rw [Lowering.run_bind_eq_ok]
  constructor
  · rintro ⟨lhs, between, hlhs, h⟩
    obtain ⟨rhs, last, hrhs, h⟩ := Lowering.run_bind_eq_ok.1 h
    obtain ⟨rfl, rfl⟩ := Lowering.run_pure_eq_ok.1 h
    exact ⟨between, hlhs, hrhs, rfl⟩
  · rintro ⟨between, hlhs, hrhs, hkind⟩
    refine ⟨w.lhs, between, hlhs, Lowering.run_bind_eq_ok.2 ⟨w.rhs, after, hrhs, ?_⟩⟩
    rw [← hkind]
    rfl

theorem FreshlyExpanded.not_mem (h : l.FreshlyExpanded vars supply) {k : Nat}
    (hk : k < l.lhs.drawCount vars + l.rhs.drawCount vars) :
    (supply.advance k).peek ∉ vars ∧ (supply.advance k).peek ∉ l.lhs.freeSymbols ∧
      (supply.advance k).peek ∉ l.rhs.freeSymbols := by
  have hnew := h k hk
  rwa [List.mem_append, freeSymbols, mem_ascending, List.mem_append, not_or, not_or] at hnew

theorem isFresh_lhs (h : l.FreshlyExpanded vars supply) : IsFresh l.lhs vars supply := by
  intro k hk
  obtain ⟨hvars, hlhs, -⟩ := h.not_mem (Nat.lt_add_right _ hk)
  exact ⟨hvars, hlhs⟩

theorem isFresh_rhs (h : l.FreshlyExpanded vars supply) :
    IsFresh l.rhs vars (supply.advance (l.lhs.drawCount vars)) := by
  intro k hk
  obtain ⟨hvars, -, hrhs⟩ := h.not_mem (Nat.add_lt_add_left hk _)
  rw [NonceSupply.advance_advance]
  exact ⟨hvars, hrhs⟩

/-- An inequality is expanded exactly if there is room for the sides that contain a variable, and
these are affine. -/
theorem exists_expanded_iff (hfresh : l.FreshlyExpanded vars supply)
    (hkeys : ∀ m, l.IsSide m → ∀ p ∈ m.parts, SymMatrix.KeysFaithful p) :
    (∃ w after, (l.expanded vars).run supply = (.ok w, after)) ↔
      ∀ m, l.IsSide m → m.Contains vars → m.HasRoom ∧ m.IsAffine vars := by
  have hlhs := exists_ofOperand_iff (isFresh_lhs hfresh) fun m hm => hkeys m (.inl hm)
  have hrhs := exists_ofOperand_iff (isFresh_rhs hfresh) fun m hm => hkeys m (.inr hm)
  constructor
  · rintro ⟨w, after, h⟩
    obtain ⟨between, hleft, hright, -⟩ := run_expanded_eq_ok.1 h
    obtain rfl := ofOperand_supply hleft
    rintro m (hm | hm)
    · exact hlhs.1 ⟨w.lhs, _, hleft⟩ m hm
    · exact hrhs.1 ⟨w.rhs, after, hright⟩ m hm
  · intro h
    obtain ⟨lhs, between, hleft⟩ := hlhs.2 fun m hm => h m (.inl hm)
    obtain rfl := ofOperand_supply hleft
    obtain ⟨rhs, after, hright⟩ := hrhs.2 fun m hm => h m (.inr hm)
    exact ⟨⟨lhs, rhs, l.kind⟩, after, run_expanded_eq_ok.2 ⟨_, hleft, hright, rfl⟩⟩

end Expanded

/-- What expanding an inequality in distinct variables comes to, if there is room for the sides that
contain a variable. It fails exactly if such a side has an entry that is not affine in the
variables, whatever the other side contains, and never with a fault. Else the kind stays, and each
side is expanded to one of the same value. The nonces are fresh as long as the serial numbers have
not started again (`freshlyExpanded_of_drawn`). -/
theorem expanded_exact (l : Lmi ℚ) (vars : List Symbol) (supply : NonceSupply)
    (hvars : vars.Nodup) (hfresh : l.FreshlyExpanded vars supply)
    (hkeys : ∀ m, l.IsSide m → ∀ p ∈ m.parts, SymMatrix.KeysFaithful p)
    (hroom : ∀ m, l.IsSide m → m.Contains vars → m.HasRoom) :
    ((∃ cause, ((l.expanded vars).run supply).1 = .error (.error cause)) ↔
      ∃ m, l.IsSide m ∧ m.Contains vars ∧
        ∃ p ∈ m.parts, ∃ i j e, Grid.entry? p i j = some e ∧ ¬ AffineIn vars e.poly) ∧
    (∀ fault, ((l.expanded vars).run supply).1 ≠ .error (.fault fault)) ∧
    ∀ w, ((l.expanded vars).run supply).1 = .ok w →
      w.kind = l.kind ∧ ExpandsTo vars l.lhs w.lhs ∧ ExpandsTo vars l.rhs w.rhs := by
  have hnever : (l.expanded vars).NeverFaults := by
    intro supply f after hrun
    obtain ⟨s, hs, ⟨x, hx, hfree⟩, hnone, -⟩ := faultsOnly_expanded l vars supply f after hrun
    refine hnone (hroom s hs (BlockMatrix.any_freeSymbols_iff.1 (List.any_eq_true.2 ?_)))
    exact ⟨x, hfree, List.contains_iff_mem.2 hx⟩
  refine ⟨?_, fun fault h => hnever supply fault _ (Prod.ext h rfl), fun w hw => ?_⟩
  · have haffine : (∃ w after, (l.expanded vars).run supply = (.ok w, after)) ↔
        ∀ m, l.IsSide m → m.Contains vars → m.IsAffine vars :=
      (exists_expanded_iff hfresh hkeys).trans <| forall₂_congr fun m hm =>
        forall_congr' fun hcontains => and_iff_right (hroom m hm hcontains)
    rw [hnever.exists_error_iff, haffine]
    simp only [BlockMatrix.IsAffine]
    push Not
    rfl
  · obtain ⟨between, hlhs, hrhs, hkind⟩ := run_expanded_eq_ok.1 (Prod.ext hw rfl)
    obtain rfl := ofOperand_supply hlhs
    refine ⟨hkind, ?_, ?_⟩
    · exact expandsTo_of_ofOperand (isFresh_lhs hfresh) (fun m hm => hkeys m (.inl hm)) hvars hlhs
    · exact expandsTo_of_ofOperand (isFresh_rhs hfresh) (fun m hm => hkeys m (.inr hm)) hvars hrhs

/-- In `x`, the blocks `(3 * (x + 1))` and `(1)` are expanded beside a matrix with `y ^ 2`, and a
block `(x * x)` is not. -/
theorem expanded_exact_of_other_square :
    let x : Symbol := { name := "x" }
    let y : Symbol := { name := "y" }
    let other : BlockMatrix ℚ := .whole (SymMatrix.diagonal [.power (.symbol y) 2, .symbol y])
    let beside (e : Expr ℚ) : BlockMatrix ℚ :=
      .blocks [SymMatrix.diagonal [e], SymMatrix.diagonal [.const 1]]
    let affine := beside (.product [.const 3, .sum [.symbol x, .const 1]])
    let square := beside (.product [.symbol x, .symbol x])
    let l (m : BlockMatrix ℚ) : Lmi ℚ := ⟨.matrix m, .matrix other, .psd⟩
    let supply := NonceSupply.first
    [x].Nodup ∧
    (∀ m ∈ [affine, square], (l m).FreshlyExpanded [x] supply ∧
      (∀ n, (l m).IsSide n → ∀ p ∈ n.parts, SymMatrix.KeysFaithful p) ∧
      ∀ n, (l m).IsSide n → n.Contains [x] → n.HasRoom) ∧
    (∃ w, (((l affine).expanded [x]).run supply).1 = .ok w ∧ w.kind = .psd ∧
      ExpandsTo [x] (.matrix affine) w.lhs ∧ w.rhs = .symbolic other) ∧
    ∃ cause, (((l square).expanded [x]).run supply).1 = .error (.error cause) := by
  intro x y other beside affine square l supply
  have hvars : [x].Nodup := List.nodup_singleton x
  have hfresh : ∀ m ∈ [affine, square], (l m).FreshlyExpanded [x] supply := by
    have hserials : ∀ m ∈ [affine, square], ∀ s ∈ [x] ++ (l m).freeSymbols,
        s.serial = none := by
      decide +kernel
    have hroom : ∀ m ∈ [affine, square], supply.next.toNat +
        ((l m).lhs.drawCount [x] + (l m).rhs.drawCount [x]) ≤ 2 ^ 32 := by
      decide +kernel
    refine fun m hm => freshlyExpanded_of_drawn (fun s hs n hn => ?_) (hroom m hm)
    rw [hserials m hm s hs] at hn
    cases hn
  have hkeys : ∀ m ∈ [affine, square], ∀ n, (l m).IsSide n → ∀ p ∈ n.parts,
      SymMatrix.KeysFaithful p := by
    have hnodup : ∀ m ∈ [affine, square], ∀ n ∈ [m, other], ∀ p ∈ n.parts,
        ∀ e ∈ p.entries.toList, (e.summands.map Expr.key).Nodup := by
      decide +kernel
    rintro m hm n (⟨⟨⟩⟩ | ⟨⟨⟩⟩) p hp
    · exact SymMatrix.keysFaithful_of_nodup (hnodup m hm m (by simp) p hp)
    · exact SymMatrix.keysFaithful_of_nodup (hnodup m hm other (by simp) p hp)
  have hroom : ∀ m ∈ [affine, square], ∀ n, (l m).IsSide n → n.Contains [x] → n.HasRoom := by
    have hbeside : ∀ e, (beside e).HasRoom := by
      refine fun e => Grid.fits_of_square _ fun p hp => ?_
      rcases List.mem_pair.1 hp with rfl | rfl <;> rfl
    rintro m hm n (⟨⟨⟩⟩ | ⟨⟨⟩⟩) -
    · rcases List.mem_pair.1 hm with rfl | rfl
      · exact hbeside _
      · exact hbeside _
    · exact BlockMatrix.hasRoom_whole _
  have hother : ¬ other.Contains [x] := fun h => by
    have hnone : other.freeSymbols.any [x].contains = false := by decide +kernel
    rw [BlockMatrix.any_freeSymbols_iff.2 h] at hnone
    cases hnone
  have hsucceeds : (((l affine).expanded [x]).run supply).1.toBool = true := by
    decide +kernel
  refine ⟨hvars, fun m hm => ⟨hfresh m hm, hkeys m hm, hroom m hm⟩, ?_, ?_⟩
  · obtain ⟨-, -, hsides⟩ :=
      expanded_exact (l affine) [x] supply hvars (hfresh affine (by simp)) (hkeys affine (by simp))
        (hroom affine (by simp))
    obtain ⟨w, hw⟩ := Except.exists_of_toBool hsucceeds
    obtain ⟨hkind, hlhs, hrhs⟩ := hsides w hw
    exact ⟨w, hw, hkind, hlhs, hrhs.eq_symbolic hother⟩
  · obtain ⟨hfails, -⟩ :=
      expanded_exact (l square) [x] supply hvars (hfresh square (by simp)) (hkeys square (by simp))
        (hroom square (by simp))
    have hcontains : square.Contains [x] := BlockMatrix.any_freeSymbols_iff.1 (by decide +kernel)
    let e : Expr ℚ := .product [.symbol x, .symbol x]
    have hentry : Grid.entry? (SymMatrix.diagonal [e]) 0 0 = some e :=
      Grid.entry?_tabulate _ ⟨Nat.one_pos, Nat.one_pos⟩
    have hnone : LinearForm.affineTerms? [x] e = none :=
      Option.isNone_iff_eq_none.1 (by decide +kernel)
    exact hfails.2 ⟨square, .inl rfl, hcontains, _, List.mem_cons_self, 0, 0, e, hentry,
      LinearForm.affineTerms?_eq_none hnone⟩

/-- The entry `x` is affine in `x`, and yet a side is not expanded that has it below strips. -/
theorem expanded_not_exact_of_strips :
    let x : Symbol := { name := "x" }
    let strips : List (SymMatrix ℚ) := [SymMatrix.zeros 3 0, SymMatrix.zeros 0 (2 ^ 62 - 1)]
    let m : BlockMatrix ℚ := .blocks (strips ++ [SymMatrix.diagonal [.symbol x]])
    let l : Lmi ℚ := ⟨.matrix m, .zero, .psd⟩
    let supply := NonceSupply.first
    Lmi.make l.lhs l.rhs l.kind false = .ok l ∧ [x].Nodup ∧ l.FreshlyExpanded [x] supply ∧
    (∀ m, l.IsSide m → ∀ p ∈ m.parts, SymMatrix.KeysFaithful p) ∧
    (∀ m, l.IsSide m → m.Contains [x] → m.IsAffine [x]) ∧
    ∃ fault, ((l.expanded [x]).run supply).1 = .error (.fault fault) := by
  intro x strips m l supply
  have hkeys : ∀ p ∈ m.parts, SymMatrix.KeysFaithful p := by
    have hnodup : ∀ p ∈ m.parts, ∀ e ∈ p.entries.toList, (e.summands.map Expr.key).Nodup := by
      decide +kernel
    exact fun p hp => SymMatrix.keysFaithful_of_nodup (hnodup p hp)
  refine ⟨rfl, List.nodup_singleton x, fun k _ hmem => ?_, fun n hn => ?_, fun n hn _ => ?_,
    .noRoom 4 (2 ^ 62), ?_⟩
  · have hserials : ∀ s ∈ [x] ++ l.freeSymbols, s.serial = none := by
      decide +kernel
    have hnone := hserials _ hmem
    cases hnone
  · rcases hn with ⟨⟨⟩⟩ | ⟨⟨⟩⟩
    exact hkeys
  · rcases hn with ⟨⟨⟩⟩ | ⟨⟨⟩⟩
    have haffine : ∀ p ∈ m.parts, ∀ e ∈ p.entries.toList,
        (e.topTerms.map Expr.key).Nodup ∧ (LinearForm.affineTerms? [x] e).isSome = true := by
      decide +kernel
    intro p hp i j e he
    obtain ⟨hnodup, hsome⟩ := haffine p hp e (Grid.mem_entries.2 ⟨i, j, he⟩)
    obtain ⟨terms, hterms⟩ := Option.isSome_iff_exists.1 hsome
    exact (LinearForm.affineTerms?_eq_some (Expr.keysFaithful_of_nodup hnodup) hterms).1
  · exact (Except.map_eq_error (f := fun _ => ())).1 (by decide +kernel)

end Lmi

end Semidefinite
