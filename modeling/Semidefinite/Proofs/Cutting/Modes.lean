import Semidefinite.Proofs.BlockLowering
import Semidefinite.Proofs.Storage.Backends

/-!
# However matrices are cut, the same is lowered

The constants of the blocks along the diagonal are the constant terms of the
canonical matrices along the diagonal, and so are the coefficients of each
variable (`lowerBlocks_assembled`). Neither speaks of the cutting, which therefore
makes no difference to what is lowered, nor to whether it is
(`lowerBlocks_independent_of_cutting`).
-/

namespace Semidefinite

/-! ## Pencils along the diagonal -/

section Assembly
variable {S : Type → Type} [Storage S]

/-- The numbers that a storage reads, cell by cell. -/
def Storage.grid (m : S ℚ) : Grid ℚ :=
  Grid.tabulate (shape m).1 (shape m).2 fun i j => value m i j

theorem Storage.grid_eq_map {α : Type} {m : S ℚ} {g : Grid α} {f : α → ℚ}
    (hshape : shape m = g.shape) (hread : ∀ i j a, g.entry? i j = some a → value m i j = f a) :
    grid m = g.map f := by
  obtain ⟨hrows, hcols⟩ := Prod.mk.inj hshape
  refine Grid.ext_entry? hrows hcols fun i j hi hj => ?_
  have hin : i < (shape m).1 ∧ j < (shape m).2 := ⟨hi, hj⟩
  have hentry := g.entry?_eq_some ⟨Nat.lt_of_lt_of_eq hi hrows, Nat.lt_of_lt_of_eq hj hcols⟩
  rw [grid, Grid.entry?_tabulate _ hin, Grid.entry?_map, hentry, Option.map_some,
    hread i j _ hentry]

namespace Pencil

/-- The constant matrices of the blocks along the diagonal. -/
def assembledConstant (pencils : List (Pencil S ℚ)) : Grid ℚ :=
  Grid.blockDiagonal 0 (pencils.map fun p => Storage.grid p.constant)

/-- The coefficient matrices of the `k`-th variable along the diagonal. -/
def assembledCoefficient (pencils : List (Pencil S ℚ)) (k : Nat) : Grid ℚ :=
  Grid.blockDiagonal 0 (pencils.filterMap fun p => p.coefficients[k]?.map Storage.grid)

variable [FaithfulStorage S ℚ] {m : SymMatrix ℚ} {vars : List Symbol} {supply supply' : NonceSupply}
  {pencil : Pencil S ℚ}

/-- The matrices of a pencil are made of the coefficients of the entries. -/
theorem grids_of_extract (hfresh : m.IsFresh vars supply) (hkeys : m.KeysFaithful)
    (h : (extract S m vars).run supply = (.ok pencil, supply')) :
    Storage.grid pencil.constant = Grid.map (fun e : Expr ℚ => e.poly.coeff 0) m ∧
      ∀ (k : Nat) (hk : k < vars.length), pencil.coefficients[k]?.map Storage.grid =
        some (Grid.map (fun e : Expr ℚ => e.poly.coeff (Finsupp.single vars[k] 1)) m) := by
  obtain ⟨hwell, hshape, hforms⟩ := extract_eq_ok hfresh hkeys h
  refine ⟨Storage.grid_eq_map hshape fun i j e he => ?_, fun k hk => ?_⟩
  · exact congrArg LinearForm.constant (hforms i j e he).2
  · have hk' : k < pencil.coefficients.length := by rwa [hwell.count]
    rw [List.getElem?_eq_getElem hk', Option.map_some, Option.some.injEq]
    refine Storage.grid_eq_map ((hwell.shapes _ (List.getElem_mem hk')).trans hshape)
      fun i j e he => ?_
    have hparts := congrArg (fun form => form.coefficients[k]?) (hforms i j e he).2
    simpa [formAt, LinearForm.ofPoly, hk, hk'] using hparts

end Pencil

end Assembly

/-! ## Keys of blocks -/

namespace SymMatrix

theorem keysFaithful_zero : Expr.KeysFaithful (Expr.zero : Expr ℚ).summands :=
  Expr.keysFaithful_of_nodup (List.nodup_singleton _)

theorem keysFaithful_blockDiagonal {parts : List (SymMatrix ℚ)} (h : ∀ m ∈ parts, KeysFaithful m) :
    KeysFaithful (blockDiagonal parts) :=
  allEntries_blockDiagonal keysFaithful_zero h

end SymMatrix

theorem IsCutInto.keysFaithful {m : SymMatrix ℚ} {blocks : List (SymMatrix ℚ)}
    (h : IsCutInto m blocks) (hkeys : m.KeysFaithful) {b : SymMatrix ℚ} (hb : b ∈ blocks) :
    b.KeysFaithful := by
  intro i j e he
  obtain ⟨r, c, hentry⟩ := h.exists_entry hb he
  exact hkeys r c e hentry

/-! ## Lowering under any cutting -/

section Modes
variable {S : Type → Type} [Storage S] [FaithfulStorage S ℚ] {lmis : List (Lmi ℚ)}
  {vars : List Symbol} {cutting : Cutting} {supply supply' : NonceSupply}
  {pencils : List (Pencil S ℚ)}

/-- The blocks' matrices along the diagonal are made of the coefficients of the canonical
matrices along the diagonal. -/
theorem lowerBlocks_assembled {ms : List (BlockMatrix ℚ)}
    (hms : lmis.mapM Lmi.canonicalMatrix = .ok ms)
    (hkeys : ∀ m ∈ ms, SymMatrix.KeysFaithful m.toDense)
    (hfresh : FreshNonces lmis vars cutting supply)
    (h : (lowerBlocks S lmis vars cutting).run supply = (.ok pencils, supply')) :
    let whole := SymMatrix.blockDiagonal (ms.map BlockMatrix.toDense)
    (∀ pencil ∈ pencils, pencil.WellShaped vars.length) ∧
      Pencil.assembledConstant pencils = whole.map (fun e => e.poly.coeff 0) ∧
      ∀ (k : Nat) (hk : k < vars.length), Pencil.assembledCoefficient pencils k =
        whole.map fun e => e.poly.coeff (Finsupp.single vars[k] 1) := by
  intro whole
  obtain ⟨blocks, hblocks, hpencils⟩ := lowerBlocks_eq_ok h
  have hcut : IsCutInto whole blocks := isCutInto_canonicalBlocks hms hblocks
  have hwhole : whole.KeysFaithful :=
    SymMatrix.keysFaithful_blockDiagonal (List.forall_mem_map.2 hkeys)
  have hextracted : List.Forall₂ (fun m pencil => pencil.WellShaped vars.length ∧
      Storage.grid pencil.constant = Grid.map (fun e : Expr ℚ => e.poly.coeff 0) m ∧
      ∀ (k : Nat) (hk : k < vars.length), pencil.coefficients[k]?.map Storage.grid =
        some (Grid.map (fun e : Expr ℚ => e.poly.coeff (Finsupp.single vars[k] 1)) m))
      blocks pencils := by
    refine hpencils.imp ?_
    rintro m pencil ⟨hm, k, after, hk, hextract⟩
    have hblockFresh := hfresh.isFresh hblocks hm hk
    have hblockKeys := hcut.keysFaithful hwhole hm
    exact ⟨(Pencil.extract_eq_ok hblockFresh hblockKeys hextract).1,
      Pencil.grids_of_extract hblockFresh hblockKeys hextract⟩
  refine ⟨fun pencil hpencil => ?_, ?_, fun k hk => ?_⟩
  · obtain ⟨m, -, hwell, -⟩ := exists_of_mem_right hextracted hpencil
    exact hwell
  · rw [Pencil.assembledConstant, ← map_eq_map_of_forall₂ (hextracted.imp fun _ _ h => h.2.1.symm)]
    exact hcut.map_blockDiagonal fun e he => by rw [he, MvPolynomial.coeff_zero]
  · rw [Pencil.assembledCoefficient,
      filterMap_eq_map_of_forall₂ (hextracted.imp fun _ _ h => h.2.2 k hk)]
    exact hcut.map_blockDiagonal fun e he => by rw [he, MvPolynomial.coeff_zero]

end Modes

/-- Cutting makes no difference to lowering. It succeeds for one way of cutting exactly if it does
for another, and then the constants along the diagonal are the same matrix, and so are the
coefficients of each variable. That the nonces are fresh holds as long as the serial numbers have
not started again (`freshNonces_of_drawn`). -/
theorem lowerBlocks_independent_of_cutting (lmis : List (Lmi ℚ))
    (hlmis : ∀ l ∈ lmis, ∃ lhs rhs kind, Lmi.make lhs rhs kind true = .ok l)
    (vars : List Symbol) (backend : Backend) (cutting₁ cutting₂ : Cutting)
    (supply₁ supply₂ : NonceSupply) (hfresh₁ : FreshNonces lmis vars cutting₁ supply₁)
    (hfresh₂ : FreshNonces lmis vars cutting₂ supply₂) :
    let lowered₁ := ((lowerBlocks backend.Store lmis vars cutting₁).run supply₁).1
    let lowered₂ := ((lowerBlocks backend.Store lmis vars cutting₂).run supply₂).1
    ((∃ pencils, lowered₁ = .ok pencils) ↔ ∃ pencils, lowered₂ = .ok pencils) ∧
    ((∀ l ∈ lmis, ∀ m, l.canonicalMatrix = .ok m → SymMatrix.KeysFaithful m.toDense) →
      ∀ pencils₁ pencils₂, lowered₁ = .ok pencils₁ → lowered₂ = .ok pencils₂ →
        (∀ pencil ∈ pencils₁ ++ pencils₂, pencil.WellShaped vars.length) ∧
        Pencil.assembledConstant pencils₁ = Pencil.assembledConstant pencils₂ ∧
        ∀ k < vars.length,
          Pencil.assembledCoefficient pencils₁ k = Pencil.assembledCoefficient pencils₂ k) := by
  intro lowered₁ lowered₂
  obtain ⟨ms, hms⟩ := exists_matrices hlmis
  have hsquare : ∀ m ∈ ms, m.IsSquare := fun _ => isSquare_of_mem_matrices hlmis hms
  have hrun : ∀ (cutting : Cutting) (supply : NonceSupply) (pencils),
      ((lowerBlocks backend.Store lmis vars cutting).run supply).1 = .ok pencils ↔
        ∃ after, (lowerBlocks backend.Store lmis vars cutting).run supply = (.ok pencils, after) :=
    fun cutting supply pencils => ⟨fun h => ⟨_, Prod.ext h rfl⟩, fun ⟨_, h⟩ => congrArg Prod.fst h⟩
  refine ⟨?_, fun hkeys pencils₁ pencils₂ h₁ h₂ => ?_⟩
  · simp only [lowered₁, lowered₂, hrun]
    rw [exists_lowerBlocks_iff hms hsquare hfresh₁, exists_lowerBlocks_iff hms hsquare hfresh₂]
  · have hdense : ∀ m ∈ ms, SymMatrix.KeysFaithful m.toDense := by
      intro m hm
      obtain ⟨l, hl, hlm⟩ := exists_of_mem_right (Except.forall₂_of_mapM_eq_ok hms) hm
      exact hkeys l hl m hlm
    obtain ⟨after₁, hrun₁⟩ := (hrun _ _ _).1 h₁
    obtain ⟨after₂, hrun₂⟩ := (hrun _ _ _).1 h₂
    obtain ⟨hwell₁, hconstant₁, hcoefficient₁⟩ := lowerBlocks_assembled hms hdense hfresh₁ hrun₁
    obtain ⟨hwell₂, hconstant₂, hcoefficient₂⟩ := lowerBlocks_assembled hms hdense hfresh₂ hrun₂
    refine ⟨fun pencil hpencil => ?_, hconstant₁.trans hconstant₂.symm, fun k hk =>
      (hcoefficient₁ k hk).trans (hcoefficient₂ k hk).symm⟩
    rcases List.mem_append.1 hpencil with hpencil | hpencil
    · exact hwell₁ pencil hpencil
    · exact hwell₂ pencil hpencil

/-- In `x` and `2`, coupled by `y * (x + 1) - x * y - y`, and `y` above nothing there are two whole
matrices and three finest blocks. -/
theorem lowerBlocks_independent_of_cutting_of_cancelled_coupling :
    let x : Symbol := { name := "x" }
    let y : Symbol := { name := "y" }
    let coupling : Expr ℚ := .sum [.product [.symbol y, .sum [.symbol x, .const 1]],
      .product [.const (-1), .symbol x, .symbol y], .product [.const (-1), .symbol y]]
    let coupled : Lmi ℚ :=
      ⟨.matrix (.whole (Grid.tabulate 2 2 fun i j =>
        if i = j then [.symbol x, .const 2][i] else coupling)), .zero, .psd⟩
    let carrying : Lmi ℚ :=
      ⟨.zero, .matrix (.blocks [SymMatrix.diagonal [.symbol y], SymMatrix.diagonal []]), .nsd⟩
    let lmis := [coupled, carrying]
    let supply := NonceSupply.first
    (∀ l ∈ lmis, ∃ lhs rhs kind, Lmi.make lhs rhs kind true = .ok l) ∧
    FreshNonces lmis [x, y] .whole supply ∧ FreshNonces lmis [x, y] .finest supply ∧
    (∀ l ∈ lmis, ∀ m, l.canonicalMatrix = .ok m → SymMatrix.KeysFaithful m.toDense) ∧
    ∃ whole finest,
      ((lowerBlocks Backend.triplets.Store lmis [x, y] .whole).run supply).1 = .ok whole ∧
      ((lowerBlocks Backend.triplets.Store lmis [x, y] .finest).run supply).1 = .ok finest ∧
      whole.length = 2 ∧ finest.length = 3 ∧
      Pencil.assembledConstant whole = Pencil.assembledConstant finest ∧
      ∀ k < [x, y].length,
        Pencil.assembledCoefficient whole k = Pencil.assembledCoefficient finest k := by
  intro x y coupling coupled carrying lmis supply
  have hsymmetric : ∀ l ∈ lmis, l.lhs.isSymmetric = true ∧ l.rhs.isSymmetric = true := by
    decide +kernel
  have hoperands : ∀ l ∈ lmis, Lmi.checkOperands l.lhs l.rhs = .ok () :=
    List.forall_mem_cons.2 ⟨rfl, List.forall_mem_singleton.2 rfl⟩
  have hlmis : ∀ l ∈ lmis, ∃ lhs rhs kind, Lmi.make lhs rhs kind true = .ok l :=
    Lmi.built_of_checked hoperands hsymmetric
  have hfresh : ∀ cutting, FreshNonces lmis [x, y] cutting supply := fun _ =>
    freshNonces_of_named (by decide +kernel)
  have hkeys : ∀ l ∈ lmis, ∀ m, l.canonicalMatrix = .ok m → SymMatrix.KeysFaithful m.toDense := by
    have hnodup : ∀ l ∈ lmis, ∀ m ∈ l.canonicalMatrix.toOption,
        ∀ e ∈ m.toDense.entries.toList, (e.summands.map Expr.key).Nodup := by
      decide +kernel
    intro l hl m hm
    exact SymMatrix.keysFaithful_of_nodup (hnodup l hl m (by rw [hm]; rfl))
  obtain ⟨hsucceeds, hagree⟩ := lowerBlocks_independent_of_cutting lmis hlmis [x, y] .triplets
    .whole .finest supply supply (hfresh .whole) (hfresh .finest)
  have hwhole : ((lowerBlocks Backend.triplets.Store lmis [x, y] .whole).run
      supply).1.toOption.map List.length = some 2 := by
    decide +kernel
  have hfinest : ((lowerBlocks Backend.triplets.Store lmis [x, y] .finest).run
      supply).1.toOption.map List.length = some 3 := by
    decide +kernel
  cases hlowered : ((lowerBlocks Backend.triplets.Store lmis [x, y] .whole).run supply).1 with
  | error failure =>
    rw [hlowered] at hwhole
    cases hwhole
  | ok whole =>
    obtain ⟨finest, hfinestLowered⟩ := hsucceeds.1 ⟨whole, hlowered⟩
    obtain ⟨-, hconstant, hcoefficient⟩ := hagree hkeys whole finest hlowered hfinestLowered
    rw [hlowered] at hwhole
    rw [hfinestLowered] at hfinest
    exact ⟨hlmis, hfresh .whole, hfresh .finest, hkeys, whole, finest, rfl, hfinestLowered,
      Option.some.inj hwhole, Option.some.inj hfinest, hconstant, hcoefficient⟩

end Semidefinite
