import Semidefinite.Proofs.BlockLowering
import Semidefinite.Proofs.Storage.Backends

/-!
# Lowering keeps the meaning of a problem

A problem in numbers says under every assignment what the problem says: its
objective is the objective without the constant term, and its pencils on the
diagonal are the differences of the sides of the inequalities.
-/

namespace Semidefinite

/-! ## Objectives -/

namespace Sense

/-- What is minimized. -/
def target {K : Type} [Scalar K] : Sense → Expr K → Expr K
  | minimize, objective => objective
  | maximize, objective => objective.negate

/-- A value of the objective as a value of what is minimized. -/
def signed : Sense → ℚ → ℚ
  | minimize, q => q
  | maximize, q => -q

theorem eval_target (sense : Sense) (objective : Expr ℚ) (x : Symbol → ℚ) :
    (sense.target objective).eval x = sense.signed (objective.eval x) := by
  cases sense with
  | minimize => rfl
  | maximize => exact Expr.eval_negate x objective

theorem coeff_zero_target (sense : Sense) (objective : Expr ℚ) :
    (sense.target objective).poly.coeff 0 = sense.signed (objective.poly.coeff 0) := by
  cases sense with
  | minimize => rfl
  | maximize =>
    have hpoly : objective.negate.poly = -objective.poly := Expr.eval_negate _ objective
    rw [target, hpoly, MvPolynomial.coeff_neg, signed]

theorem signed_sub (sense : Sense) (a b : ℚ) :
    sense.signed (a - b) = sense.signed a - sense.signed b := by
  cases sense with
  | minimize => rfl
  | maximize => exact (neg_sub a b).trans (neg_sub_neg a b).symm

theorem mem_occurrences_target {K : Type} [Scalar K] {sense : Sense} {objective : Expr K}
    {s : Symbol} (hs : s ∈ (sense.target objective).occurrences) : s ∈ objective.occurrences := by
  cases sense with
  | minimize => exact hs
  | maximize => exact Expr.mem_occurrences_negate hs

end Sense

theorem objectiveCoefficients_eq {K : Type} [Scalar K] (objective : Expr K) (vars : List Symbol)
    (sense : Sense) : objectiveCoefficients objective vars sense = (do
      let form ← ExceptT.adapt (fun cause => Failure.error (.nonLinearExpression cause))
        ((sense.target objective).linearForm vars)
      pure form.coefficients : Lowering LmiError (List K)) := by
  cases sense <;> rfl

theorem run_objectiveCoefficients_eq_ok {K : Type} [Scalar K] {objective : Expr K}
    {vars : List Symbol} {sense : Sense} {supply supply' : NonceSupply} {coefficients : List K} :
    (objectiveCoefficients objective vars sense).run supply = (.ok coefficients, supply') ↔
      ∃ form, LinearForm.ofExpr supply.peek (sense.target objective) vars = .ok form ∧
        form.coefficients = coefficients ∧ supply.advance 1 = supply' := by
  rw [objectiveCoefficients_eq, Lowering.run_bind_eq_ok]
  refine ⟨?_, ?_⟩
  · rintro ⟨form, between, hform, hpure⟩
    rw [Lowering.run_adapt_eq_ok, Lowering.run_linearForm_eq_ok] at hform
    rw [Lowering.run_pure_eq_ok] at hpure
    exact ⟨form, hform.1, hpure.1, hform.2.trans hpure.2⟩
  · rintro ⟨form, hform, hcoefficients, hsupply⟩
    refine ⟨form, supply', ?_, Lowering.run_pure_eq_ok.2 ⟨hcoefficients, rfl⟩⟩
    rw [Lowering.run_adapt_eq_ok, Lowering.run_linearForm_eq_ok]
    exact ⟨hform, hsupply⟩

section Objective
variable {objective : Expr ℚ} {vars : List Symbol} {sense : Sense} {supply supply' : NonceSupply}
  {coefficients : List ℚ}

theorem exists_objectiveCoefficients_iff (hoccurs : supply.peek ∉ objective.occurrences) :
    (∃ coefficients after,
        (objectiveCoefficients objective vars sense).run supply = (.ok coefficients, after)) ↔
      (sense.target objective).Readable vars := by
  have htarget : supply.peek ∉ (sense.target objective).occurrences :=
    fun hs => hoccurs (Sense.mem_occurrences_target hs)
  rw [← LinearForm.exists_ofExpr_iff htarget]
  constructor
  · rintro ⟨coefficients, after, hrun⟩
    obtain ⟨form, hform, -⟩ := run_objectiveCoefficients_eq_ok.1 hrun
    exact ⟨form, hform⟩
  · rintro ⟨form, hform⟩
    exact ⟨_, _, run_objectiveCoefficients_eq_ok.2 ⟨form, hform, rfl, rfl⟩⟩

/-- The coefficients have the value of the objective without its constant term. -/
theorem objectiveCoefficients_eq_ok (hvars : vars.Nodup) (hnonce : supply.peek ∉ vars)
    (hoccurs : supply.peek ∉ objective.occurrences)
    (hkeys : Expr.KeysFaithful (sense.target objective).summands)
    (h : (objectiveCoefficients objective vars sense).run supply = (.ok coefficients, supply')) :
    coefficients.length = vars.length ∧ ∀ x : Symbol → ℚ,
      (List.zipWith (fun c v => c * x v) coefficients vars).sum =
        sense.signed (objective.eval x - objective.poly.coeff 0) := by
  obtain ⟨form, hform, rfl, -⟩ := run_objectiveCoefficients_eq_ok.1 h
  obtain ⟨haffine, rfl⟩ := LinearForm.ofExpr_eq_ok hnonce
    (fun hs => hoccurs (Sense.mem_occurrences_target hs)) hkeys hform
  refine ⟨by simp [LinearForm.ofPoly], fun x => ?_⟩
  have hvalue := LinearForm.eval_eq_value hvars haffine x
  rw [Sense.eval_target, LinearForm.value] at hvalue
  rw [Sense.signed_sub, hvalue, ← Sense.coeff_zero_target]
  exact (add_sub_cancel_left _ _).symm

end Objective

/-! ## Problems -/

namespace Problem

section Symbols
variable {K : Type}

/-- The symbols that a problem speaks of. -/
def symbols (p : Problem K) : List Symbol :=
  p.vars ++ p.objective.occurrences ++ p.lmis.flatMap Lmi.freeSymbols

theorem firstRepeated?_eq_none_iff {vars : List Symbol} {seen : List Symbol} :
    firstRepeated? seen vars = none ↔ vars.Nodup ∧ ∀ v ∈ vars, v ∉ seen := by
  induction vars generalizing seen with
  | nil => simp [firstRepeated?]
  | cons v rest ih =>
    unfold firstRepeated?
    rw [List.nodup_cons, List.forall_mem_cons]
    by_cases hseen : v ∈ seen
    · rw [if_pos (List.contains_iff_mem.2 hseen)]
      exact ⟨nofun, fun h => absurd hseen h.2.1⟩
    · rw [if_neg (mt List.contains_iff_mem.1 hseen), ih]
      constructor
      · rintro ⟨hnodup, hrest⟩
        exact ⟨⟨fun hv => hrest v hv List.mem_cons_self, hnodup⟩, hseen,
          fun w hw hmem => hrest w hw (List.mem_cons_of_mem _ hmem)⟩
      · rintro ⟨⟨hv, hnodup⟩, -, hrest⟩
        refine ⟨hnodup, fun w hw hmem => ?_⟩
        rcases List.mem_cons.1 hmem with rfl | hmem
        · exact hv hw
        · exact hrest w hw hmem

theorem make_eq_ok {objective : Expr K} {lmis : List (Lmi K)} {vars : List Symbol} {p : Problem K}
    (h : make objective lmis vars = .ok p) : p = ⟨objective, lmis, vars⟩ ∧ vars.Nodup := by
  unfold make at h
  split at h
  · cases h
  · rename_i hrepeated
    cases h
    exact ⟨rfl, (firstRepeated?_eq_none_iff.1 hrepeated).1⟩

theorem make_of_nodup {vars : List Symbol} (h : vars.Nodup) (objective : Expr K)
    (lmis : List (Lmi K)) : make objective lmis vars = .ok ⟨objective, lmis, vars⟩ := by
  unfold make
  rw [firstRepeated?_eq_none_iff.2 ⟨h, fun _ _ => List.not_mem_nil⟩]

variable [Scalar K]

/-- How many nonces lowering draws: one for the objective, and one for each entry of the blocks
that is not the literal zero. -/
def drawCount (p : Problem K) (cutting : Cutting) : Nat :=
  match canonicalBlocks p.lmis cutting with
  | .ok blocks => 1 + (blocks.map SymMatrix.drawCount).sum
  | .error _ => 1

end Symbols

section Numeric
variable {K : Type} [Scalar K] {S : Type → Type} [Storage S] {p : Problem K} {sense : Sense}
  {cutting : Cutting} {supply : NonceSupply} {numbers : NumericProblem S K}

/-- The objective is put into numbers first, and then the blocks. -/
theorem run_numeric_eq_ok {after : NonceSupply} :
    (p.numeric S sense cutting).run supply = (.ok numbers, after) ↔
      (Semidefinite.objectiveCoefficients p.objective p.vars sense).run supply =
        (.ok numbers.objective, supply.advance 1) ∧
      (lowerBlocks S p.lmis p.vars cutting).run (supply.advance 1) =
        (.ok numbers.blocks, after) := by
  unfold numeric
  rw [Lowering.run_bind_eq_ok]
  constructor
  · rintro ⟨coefficients, between, hobjective, hrun⟩
    rw [Lowering.run_bind_eq_ok] at hrun
    obtain ⟨pencils, after, hpencils, hrun⟩ := hrun
    rw [Lowering.run_pure_eq_ok] at hrun
    obtain ⟨rfl, rfl⟩ := hrun
    obtain ⟨_, _, _, rfl⟩ := run_objectiveCoefficients_eq_ok.1 hobjective
    exact ⟨hobjective, hpencils⟩
  · rintro ⟨hobjective, hpencils⟩
    refine ⟨_, _, hobjective, ?_⟩
    rw [Lowering.run_bind_eq_ok]
    exact ⟨_, _, hpencils, Lowering.run_pure_eq_ok.2 ⟨rfl, rfl⟩⟩

theorem numeric_eq_ok (h : ((p.numeric S sense cutting).run supply).1 = .ok numbers) :
    ∃ after,
      (Semidefinite.objectiveCoefficients p.objective p.vars sense).run supply =
        (.ok numbers.objective, supply.advance 1) ∧
      (lowerBlocks S p.lmis p.vars cutting).run (supply.advance 1) = (.ok numbers.blocks, after) :=
  ⟨_, run_numeric_eq_ok.1 (Prod.ext h rfl)⟩

end Numeric

section Fresh
variable {K : Type} [Scalar K] {p : Problem K} {cutting : Cutting} {supply : NonceSupply}

theorem drawCount_pos (p : Problem K) (cutting : Cutting) : 0 < p.drawCount cutting := by
  unfold drawCount
  split <;> omega

omit [Scalar K] in
theorem not_mem_of_fresh {s : Symbol} (h : s ∉ p.symbols) :
    s ∉ p.vars ∧ s ∉ p.objective.occurrences ∧ ∀ l ∈ p.lmis, s ∉ l.freeSymbols := by
  simp only [symbols, List.mem_append, List.mem_flatMap, not_or, not_exists, not_and] at h
  exact ⟨h.1.1, h.1.2, h.2⟩

/-- None of the nonces that lowering draws is a symbol of the problem. -/
def DrawsFresh (p : Problem K) (cutting : Cutting) (supply : NonceSupply) : Prop :=
  ∀ k < p.drawCount cutting, (supply.advance k).peek ∉ p.symbols

/-- The nonces of a problem are none of those drawn later, as long as the serial numbers have not
started again. -/
theorem drawsFresh_of_drawn
    (hdrawn : ∀ s ∈ p.symbols, ∀ n, s.serial = some n → n < supply.next)
    (hroom : supply.next.toNat + p.drawCount cutting ≤ 2 ^ 32) : p.DrawsFresh cutting supply :=
  fun _ hk => NonceSupply.peek_advance_not_mem hdrawn (by omega)

theorem drawsFresh_of_named (hnamed : ∀ s ∈ p.symbols, s.isNonce = false) :
    p.DrawsFresh cutting supply := by
  intro k _ hmem
  cases hnamed _ hmem

/-- Nonces that are fresh in the problem are fresh once the objective has drawn its own. -/
theorem freshNonces_of_fresh
    (hfresh : p.DrawsFresh cutting supply) :
    FreshNonces p.lmis p.vars cutting (supply.advance 1) := by
  intro blocks hblocks k hk
  have hcount : p.drawCount cutting = 1 + (blocks.map SymMatrix.drawCount).sum := by
    unfold drawCount
    rw [hblocks]
  rw [NonceSupply.advance_advance]
  obtain ⟨hvars, -, hlmis⟩ := not_mem_of_fresh (hfresh (1 + k) (by omega))
  exact ⟨hvars, hlmis⟩

theorem isFresh_of_mem_blocks (hfresh : p.DrawsFresh cutting supply)
    {blocks : List (SymMatrix K)} (hblocks : canonicalBlocks p.lmis cutting = .ok blocks)
    {m : SymMatrix K} (hm : m ∈ blocks) {k : Nat}
    (hk : k + m.drawCount ≤ (blocks.map SymMatrix.drawCount).sum) :
    m.IsFresh p.vars ((supply.advance 1).advance k) :=
  (freshNonces_of_fresh hfresh).isFresh hblocks hm hk

end Fresh

/-- A problem can be put into numbers exactly if what is minimized and the entries of all canonical
matrices are readable. -/
theorem exists_numeric_iff {S : Type → Type} [Storage S] [FaithfulStorage S ℚ] {p : Problem ℚ}
    {sense : Sense} {cutting : Cutting} {supply : NonceSupply} {ms : List (BlockMatrix ℚ)}
    (hms : p.lmis.mapM Lmi.canonicalMatrix = .ok ms) (hsquare : ∀ m ∈ ms, m.IsSquare)
    (hfresh : p.DrawsFresh cutting supply) :
    (∃ numbers : NumericProblem S ℚ, ((p.numeric S sense cutting).run supply).1 = .ok numbers) ↔
      (sense.target p.objective).Readable p.vars ∧
      ∀ i j e, Grid.entry? (SymMatrix.blockDiagonal (ms.map BlockMatrix.toDense)) i j = some e →
        e.Readable p.vars := by
  obtain ⟨-, hoccurs, -⟩ := not_mem_of_fresh (hfresh 0 (drawCount_pos _ cutting))
  rw [NonceSupply.advance_zero] at hoccurs
  rw [← exists_objectiveCoefficients_iff hoccurs,
    ← exists_lowerBlocks_iff (S := S) hms hsquare (freshNonces_of_fresh hfresh)]
  constructor
  · rintro ⟨numbers, hnumbers⟩
    obtain ⟨after, hobjective, hblocks⟩ := numeric_eq_ok hnumbers
    exact ⟨⟨_, _, hobjective⟩, _, _, hblocks⟩
  · rintro ⟨⟨coefficients, between, hobjective⟩, pencils, after, hblocks⟩
    obtain ⟨_, _, _, rfl⟩ := run_objectiveCoefficients_eq_ok.1 hobjective
    have hnumbers : (p.numeric S sense cutting).run supply = (.ok ⟨coefficients, pencils⟩, after) :=
      run_numeric_eq_ok.2 ⟨hobjective, hblocks⟩
    exact ⟨_, congrArg Prod.fst hnumbers⟩

/-- A problem in numbers means what the problem means. That no nonce is met again holds as long
as the serial numbers have not started again (`drawsFresh_of_drawn`). -/
theorem numeric_value (objective : Expr ℚ) (lmis : List (Lmi ℚ)) (vars : List Symbol)
    (p : Problem ℚ) (hmake : make objective lmis vars = .ok p)
    (hlmis : ∀ l ∈ lmis, ∃ lhs rhs kind, Lmi.make lhs rhs kind true = .ok l)
    (sense : Sense) (cutting : Cutting) (backend : Backend) (supply : NonceSupply)
    (hfresh : ∀ k < p.drawCount cutting, (supply.advance k).peek ∉ p.symbols)
    (hobjective : Expr.KeysFaithful (sense.target objective).summands)
    (hblocks : ∀ blocks, canonicalBlocks lmis cutting = .ok blocks → ∀ m ∈ blocks,
      SymMatrix.KeysFaithful m)
    (numbers : NumericProblem backend.Store ℚ)
    (hnumeric : ((p.numeric backend.Store sense cutting).run supply).1 = .ok numbers)
    (x : Symbol → ℚ) :
    (numbers.objective.length = vars.length ∧
      (List.zipWith (fun c v => c * x v) numbers.objective vars).sum =
        sense.signed (objective.eval x - objective.poly.coeff 0)) ∧
    (∀ pencil ∈ numbers.blocks, pencil.WellShaped vars.length) ∧
    Grid.blockDiagonal 0 (numbers.blocks.map fun pencil => pencil.valueAt vars x) =
      Grid.blockDiagonal 0 (lmis.map (Lmi.differenceAt x)) := by
  obtain ⟨rfl, hvars⟩ := make_eq_ok hmake
  obtain ⟨after, hcoefficients, hpencils⟩ := numeric_eq_ok hnumeric
  obtain ⟨blocks, hcanonical, hpencils⟩ := lowerBlocks_eq_ok hpencils
  have hchecked : ∀ l ∈ lmis, Lmi.checkOperands l.lhs l.rhs = .ok () := by
    intro l hl
    obtain ⟨lhs, rhs, kind, hl⟩ := hlmis l hl
    obtain ⟨rfl, hoperands⟩ := Lmi.make_eq_ok hl
    exact hoperands
  have hextracted : List.Forall₂ (fun m pencil => pencil.WellShaped vars.length ∧
      pencil.valueAt vars x = Grid.map (Expr.eval x) m) blocks numbers.blocks := by
    refine hpencils.imp ?_
    rintro m pencil ⟨hm, k, after, hk, hextract⟩
    have hblockFresh := isFresh_of_mem_blocks hfresh hcanonical hm hk
    have hblockKeys := hblocks blocks hcanonical m hm
    exact ⟨(Pencil.extract_eq_ok hblockFresh hblockKeys hextract).1,
      Pencil.extract_value hvars hblockFresh hblockKeys hextract x⟩
  obtain ⟨hnonce, hoccurs, -⟩ := not_mem_of_fresh (hfresh 0 (drawCount_pos _ cutting))
  rw [NonceSupply.advance_zero] at hnonce hoccurs
  obtain ⟨hlength, hvalue⟩ :=
    objectiveCoefficients_eq_ok hvars hnonce hoccurs hobjective hcoefficients
  refine ⟨⟨hlength, hvalue x⟩, fun pencil hpencil => ?_, ?_⟩
  · obtain ⟨m, -, hwell, -⟩ := exists_of_mem_right hextracted hpencil
    exact hwell
  · have hvalues : blocks.map (Grid.map (Expr.eval x)) =
        numbers.blocks.map fun pencil => pencil.valueAt vars x := by
      rw [← List.forall₂_eq_eq_eq, List.forall₂_map_left_iff, List.forall₂_map_right_iff]
      exact hextracted.imp fun _ _ h => h.2.symm
    rw [← hvalues]
    exact blockValues_canonicalBlocks x hchecked hcanonical

/-- Maximizing `x + 2 * y + 3` where `diag(x, y + 1) ⪰ 0` and `(y) ⪯ (x)`. -/
theorem numeric_value_of_three_blocks :
    let x : Symbol := { name := "x" }
    let y : Symbol := { name := "y" }
    let objective : Expr ℚ := .sum [.symbol x, .product [.const 2, .symbol y], .const 3]
    let diagonal : Lmi ℚ :=
      ⟨.matrix (.whole (SymMatrix.diagonal [.symbol x, .sum [.symbol y, .const 1]])), .zero, .psd⟩
    let bound : Lmi ℚ :=
      ⟨.matrix (.blocks [SymMatrix.diagonal [.symbol y]]),
        .matrix (.whole (SymMatrix.diagonal [.symbol x])), .nsd⟩
    let lmis := [diagonal, bound]
    let p : Problem ℚ := ⟨objective, lmis, [x, y]⟩
    let supply := NonceSupply.first
    make objective lmis [x, y] = .ok p ∧
    (∀ l ∈ lmis, ∃ lhs rhs kind, Lmi.make lhs rhs kind true = .ok l) ∧
    (∀ k < p.drawCount .finest, (supply.advance k).peek ∉ p.symbols) ∧
    Expr.KeysFaithful (Sense.maximize.target objective).summands ∧
    (∀ blocks, canonicalBlocks lmis .finest = .ok blocks → ∀ m ∈ blocks,
      SymMatrix.KeysFaithful m) ∧
    ∃ numbers, ((p.numeric Backend.triplets.Store .maximize .finest).run supply).1 = .ok numbers ∧
      ∀ values : Symbol → ℚ,
        (numbers.objective.length = [x, y].length ∧
          (List.zipWith (fun c v => c * values v) numbers.objective [x, y]).sum =
            Sense.maximize.signed (objective.eval values - objective.poly.coeff 0)) ∧
        (∀ pencil ∈ numbers.blocks, pencil.WellShaped [x, y].length) ∧
        Grid.blockDiagonal 0 (numbers.blocks.map fun pencil => pencil.valueAt [x, y] values) =
          Grid.blockDiagonal 0 (lmis.map (Lmi.differenceAt values)) := by
  intro x y objective diagonal bound lmis p supply
  have hmake : make objective lmis [x, y] = .ok p := make_of_nodup (by decide) objective lmis
  have hlmis : ∀ l ∈ lmis, ∃ lhs rhs kind, Lmi.make lhs rhs kind true = .ok l := by
    have hsymmetric : ∀ l ∈ lmis, l.lhs.isSymmetric = true ∧ l.rhs.isSymmetric = true := by
      decide +kernel
    have hoperands : ∀ l ∈ lmis, Lmi.checkOperands l.lhs l.rhs = .ok () :=
      List.forall_mem_cons.2 ⟨rfl, List.forall_mem_singleton.2 rfl⟩
    exact Lmi.built_of_checked hoperands hsymmetric
  have hfresh : p.DrawsFresh .finest supply := drawsFresh_of_named (by decide +kernel)
  have hobjective : Expr.KeysFaithful (Sense.maximize.target objective).summands :=
    Expr.keysFaithful_of_nodup (by decide +kernel)
  have hblocks : ∀ blocks, canonicalBlocks lmis .finest = .ok blocks → ∀ m ∈ blocks,
      SymMatrix.KeysFaithful m := by
    have hkeys : ∀ m ∈ (canonicalBlocks lmis .finest).toOption.getD [],
        ∀ e ∈ m.entries.toList, (e.summands.map Expr.key).Nodup := by
      decide +kernel
    intro blocks hcanonical m hm
    rw [hcanonical] at hkeys
    exact SymMatrix.keysFaithful_of_nodup (hkeys m hm)
  refine ⟨hmake, hlmis, hfresh, hobjective, hblocks, ?_⟩
  have hsucceeds :
      ((p.numeric Backend.triplets.Store .maximize .finest).run supply).1.toBool = true := by
    decide +kernel
  obtain ⟨numbers, hnumeric⟩ := Except.exists_of_toBool hsucceeds
  exact ⟨numbers, hnumeric, fun values => numeric_value objective lmis [x, y] p hmake hlmis
    .maximize .finest .triplets supply hfresh hobjective hblocks numbers hnumeric values⟩

end Problem

end Semidefinite
