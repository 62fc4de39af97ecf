import Mathlib.Algebra.MvPolynomial.CommRing
import Semidefinite.Proofs.Export.Bounds

/-!
# Discovered variables suffice

The variables of a problem can be found out: they are the named symbols that occur in
it, each once and in order (`mem_discoverVariables`, `pairwise_discoverVariables`).
What is lowered has no other symbols, so an entry of degree one at most is affine in
them (`Expr.affineIn_iff_totalDegree_le`). With the discovered variables a problem of
such entries is put into numbers and exported in every format
(`discoveredVariables_suffice`).
-/

namespace Semidefinite

/-! ## Symbols that are mentioned -/

section Mentioned
variable {K : Type} {s : Symbol} {objective : Expr K} {lmis : List (Lmi K)}

/-- The symbol occurs in an entry of a side, which is given whole or as diagonal blocks. -/
def Lmi.Mentions (l : Lmi K) (s : Symbol) : Prop :=
  ∃ m, l.IsSide m ∧ ∃ p ∈ m.parts, ∃ i j e, Grid.entry? p i j = some e ∧ s ∈ e.occurrences

/-- The symbol occurs in the objective or in an inequality. -/
def IsMentioned (objective : Expr K) (lmis : List (Lmi K)) (s : Symbol) : Prop :=
  s ∈ objective.occurrences ∨ ∃ l ∈ lmis, l.Mentions s

theorem Operand.mem_freeSymbols {o : Operand K} :
    s ∈ o.freeSymbols ↔ ∃ m, o = .matrix m ∧ s ∈ m.freeSymbols := by
  cases o <;> simp [freeSymbols, matrix?]

theorem Lmi.mem_freeSymbols_iff_mentions {l : Lmi K} : s ∈ l.freeSymbols ↔ l.Mentions s := by
  have hside : ∀ m : BlockMatrix K, s ∈ m.freeSymbols ↔
      ∃ p ∈ m.parts, ∃ i j e, Grid.entry? p i j = some e ∧ s ∈ e.occurrences := by
    intro m
    simp only [BlockMatrix.mem_freeSymbols_iff_parts, SymMatrix.mem_freeSymbols]
  unfold freeSymbols Mentions IsSide
  rw [mem_ascending, List.mem_append, Operand.mem_freeSymbols, Operand.mem_freeSymbols, ← exists_or]
  simp only [hside, or_and_right]

theorem mem_discoverVariables :
    s ∈ discoverVariables objective lmis ↔ IsMentioned objective lmis s ∧ s.isNonce = false := by
  unfold discoverVariables IsMentioned
  rw [List.mem_filter, mem_ascending, List.mem_append, List.mem_flatMap, Bool.not_eq_true']
  simp only [Lmi.mem_freeSymbols_iff_mentions]

theorem pairwise_discoverVariables (objective : Expr K) (lmis : List (Lmi K)) :
    (discoverVariables objective lmis).Pairwise fun s t => compare s t = .lt :=
  (pairwise_ascending _).filter _

theorem nodup_discoverVariables (objective : Expr K) (lmis : List (Lmi K)) :
    (discoverVariables objective lmis).Nodup :=
  (pairwise_discoverVariables objective lmis).imp Tally.key_ne_of_lt

theorem isMentioned_of_mem_symbols (hs : s ∈ (Problem.discover objective lmis).symbols) :
    IsMentioned objective lmis s := by
  unfold Problem.symbols Problem.discover at hs
  rw [List.append_assoc, List.mem_append, List.mem_append, List.mem_flatMap] at hs
  rcases hs with hs | hs | ⟨l, hl, hs⟩
  · exact (mem_discoverVariables.1 hs).1
  · exact .inl hs
  · exact .inr ⟨l, hl, Lmi.mem_freeSymbols_iff_mentions.1 hs⟩

end Mentioned

/-! ## Polynomials of degree one -/

theorem AffineIn.totalDegree_le {vars : List Symbol} {p : MvPolynomial Symbol ℚ}
    (h : AffineIn vars p) : p.totalDegree ≤ 1 := by
  refine Finset.sup_le fun d hd => ?_
  rcases h d hd with rfl | ⟨s, -, rfl⟩
  · rw [Finsupp.sum_zero_index]
    exact Nat.zero_le 1
  · rw [Finsupp.sum_single_index rfl]

namespace Expr

/-- In variables among which are all symbols of an expression, it is affine exactly if its degree is
one at most. -/
theorem affineIn_iff_totalDegree_le {vars : List Symbol} {e : Expr ℚ}
    (hvars : ∀ s ∈ e.occurrences, s ∈ vars) :
    AffineIn vars e.poly ↔ e.poly.totalDegree ≤ 1 := by
  refine ⟨AffineIn.totalDegree_le, fun hdegree d hd => ?_⟩
  have hsum := (MvPolynomial.le_totalDegree hd).trans hdegree
  rcases Nat.le_one_iff_eq_zero_or_eq_one.1 hsum with hzero | hone
  · refine .inl (Finsupp.ext fun s => ?_)
    by_contra hs
    exact hs (Finset.sum_eq_zero_iff.1 hzero s (Finsupp.mem_support_iff.2 hs))
  · obtain ⟨s, rfl⟩ := (Finsupp.sum_eq_one_iff d).1 hone
    refine .inr ⟨s, hvars s ?_, rfl⟩
    by_contra hs
    exact MvPolynomial.mem_support_iff.1 hd (coeff_poly_of_not_mem hs (by simp))

/-- The degree is looked at once all is multiplied out. -/
theorem totalDegree_le_of_isAffine {vars : List Symbol} {e : Expr ℚ}
    (h : LinearForm.isAffine vars e.expand.terms = true) : e.poly.totalDegree ≤ 1 := by
  rw [LinearForm.isAffine_iff_affineIn (keysFaithful_expand e) (keysMonomial_expand e),
    poly_expand] at h
  exact h.totalDegree_le

end Expr

/-! ## Lowering with the discovered variables -/

section Lowering
variable {objective : Expr ℚ} {lmis : List (Lmi ℚ)}

theorem readable_target (hnamed : ∀ s, IsMentioned objective lmis s → s.isNonce = false)
    (hdegree : objective.poly.totalDegree ≤ 1) (sense : Sense) :
    (sense.target objective).Readable (discoverVariables objective lmis) := by
  have hvars : ∀ s ∈ (sense.target objective).occurrences, s ∈ discoverVariables objective lmis :=
    fun s hs =>
      have hmentioned : IsMentioned objective lmis s := .inl (Sense.mem_occurrences_target hs)
      mem_discoverVariables.2 ⟨hmentioned, hnamed s hmentioned⟩
  refine .inr ((Expr.affineIn_iff_totalDegree_le hvars).2 ?_)
  cases sense with
  | minimize => exact hdegree
  | maximize =>
    have hpoly : objective.negate.poly = -objective.poly := Expr.eval_negate _ objective
    rw [Sense.target, hpoly, MvPolynomial.totalDegree_neg]
    exact hdegree

/-- Entries of canonical matrices are readable in the discovered variables: no symbol has come in
by rewriting. -/
theorem readable_of_mem_canonicalMatrix
    (hnamed : ∀ s, IsMentioned objective lmis s → s.isNonce = false) {l : Lmi ℚ} (hl : l ∈ lmis)
    {m : BlockMatrix ℚ} (hm : l.canonicalMatrix = .ok m) {i j : Nat} {e : Expr ℚ}
    (he : Grid.entry? m.toDense i j = some e) (hdegree : e.poly.totalDegree ≤ 1) :
    e.Readable (discoverVariables objective lmis) := by
  refine .inr ((Expr.affineIn_iff_totalDegree_le fun s hs => ?_).2 hdegree)
  have hsymbol : s ∈ l.freeSymbols := Lmi.mem_freeSymbols_canonicalMatrix hm
    (BlockMatrix.mem_freeSymbols_toDense (SymMatrix.mem_freeSymbols.2 ⟨i, j, e, he, hs⟩))
  have hmentioned : IsMentioned objective lmis s :=
    .inr ⟨l, hl, Lmi.mem_freeSymbols_iff_mentions.1 hsymbol⟩
  exact mem_discoverVariables.2 ⟨hmentioned, hnamed s hmentioned⟩

theorem exists_numeric_discover {S : Type → Type} [Storage S] [FaithfulStorage S ℚ]
    (hlmis : ∀ l ∈ lmis, ∃ lhs rhs kind, Lmi.make lhs rhs kind true = .ok l)
    (hnamed : ∀ s, IsMentioned objective lmis s → s.isNonce = false)
    (hobjective : objective.poly.totalDegree ≤ 1)
    (hentries : ∀ l ∈ lmis, ∀ m, l.canonicalMatrix = .ok m → ∀ i j e,
      Grid.entry? m.toDense i j = some e → e.poly.totalDegree ≤ 1)
    (sense : Sense) (cutting : Cutting) (supply : NonceSupply) :
    ∃ numbers : NumericProblem S ℚ,
      (((Problem.discover objective lmis).numeric S sense cutting).run supply).1 = .ok numbers := by
  obtain ⟨ms, hms⟩ := exists_matrices hlmis
  have hfresh : (Problem.discover objective lmis).DrawsFresh cutting supply :=
    Problem.drawsFresh_of_named fun s hs => hnamed s (isMentioned_of_mem_symbols hs)
  refine (Problem.exists_numeric_iff hms (fun _ => isSquare_of_mem_matrices hlmis hms) hfresh).2
    ⟨readable_target hnamed hobjective sense, fun i j e he => ?_⟩
  have hzero : (Expr.zero : Expr ℚ).Readable (discoverVariables objective lmis) :=
    Expr.readable_of_poly_eq_zero Expr.poly_zero
  refine SymMatrix.allEntries_blockDiagonal hzero (fun w hw r c a ha => ?_) i j e he
  obtain ⟨m, hm, rfl⟩ := List.mem_map.1 hw
  obtain ⟨l, hl, hlm⟩ := exists_of_mem_right (Except.forall₂_of_mapM_eq_ok hms) hm
  exact readable_of_mem_canonicalMatrix hnamed hl hlm ha (hentries l hl m hlm r c a ha)

end Lowering

/-! ## Exports -/

/-- A problem with square blocks that can be put into numbers can be exported in every format. -/
theorem exists_exports {K : Type} [Scalar K] [LawfulZeros K] {p : Problem K} {config : ExportConfig}
    {supply : NonceSupply} (hsquare : p.IsCutSquare config.cutting)
    (hchosen : ∃ numbers : NumericProblem (config.backendOr .rowLists).Store K,
      ((p.numeric _ config.sense config.cutting).run supply).1 = .ok numbers)
    (hgrids : ∃ numbers : NumericProblem Grid K,
      ((p.numeric Grid config.sense config.cutting).run supply).1 = .ok numbers) :
    (∃ text, ((Sdpa.exportSparse p config).run supply).1 = .ok text) ∧
    (∃ text, ((Sdpa.exportDense p config).run supply).1 = .ok text) ∧
    ∃ c, ((ConicProblem.ofProblem p config).run supply).1 = .ok c := by
  obtain ⟨chosen, hchosen⟩ := hchosen
  obtain ⟨grids, hgrids⟩ := hgrids
  have hlisted := (Problem.isListed_numeric hgrids).1
  have hblocks := hsquare.isSquare hgrids
  obtain ⟨sparse, hsparse⟩ :=
    Sdpa.exists_renderSparse (Problem.isListed_numeric hchosen).1 config.comment
  obtain ⟨dense, hdense⟩ := Sdpa.exists_renderDense hlisted.complete config.comment
  obtain ⟨c, hc⟩ := (ConicProblem.exists_ofNumeric_iff hlisted).2
    fun block hblock => ⟨Pencil.cellsFit_of_square (hblocks block hblock),
      .inr (Nat.le_of_eq (hblocks block hblock))⟩
  have hgrids := ExportConfig.numeric_eq_ok.2 hgrids
  exact ⟨⟨sparse, Lowering.render_eq_ok.2 ⟨chosen, ExportConfig.numeric_eq_ok.2 hchosen, hsparse⟩⟩,
    ⟨dense, Lowering.render_eq_ok.2 ⟨grids, hgrids, hdense⟩⟩,
    c, Lowering.render_eq_ok.2 ⟨grids, hgrids, hc⟩⟩

/-- The discovered variables are the symbols that occur in a problem without nonces, each once and
in order, so they may be given as its variables. If the objective and the entries of all canonical
matrices have degree one at most, whatever they are written as, the problem is put into numbers in
every way and exported in every format. -/
theorem discoveredVariables_suffice (objective : Expr ℚ) (lmis : List (Lmi ℚ))
    (hlmis : ∀ l ∈ lmis, ∃ lhs rhs kind, Lmi.make lhs rhs kind true = .ok l)
    (hnamed : ∀ s, IsMentioned objective lmis s → s.isNonce = false) :
    let vars := discoverVariables objective lmis
    let p := Problem.discover objective lmis
    vars.Pairwise (fun s t => compare s t = .lt) ∧
    (∀ s, s ∈ vars ↔ IsMentioned objective lmis s) ∧
    Problem.make objective lmis vars = .ok p ∧
    (objective.poly.totalDegree ≤ 1 →
      (∀ l ∈ lmis, ∀ m, l.canonicalMatrix = .ok m → ∀ i j e,
        Grid.entry? m.toDense i j = some e → e.poly.totalDegree ≤ 1) →
      ∀ supply,
        (∀ sense cutting (backend : Backend), ∃ numbers,
          ((p.numeric backend.Store sense cutting).run supply).1 = .ok numbers) ∧
        ∀ config,
          (∃ text, ((Sdpa.exportSparse p config).run supply).1 = .ok text) ∧
          (∃ text, ((Sdpa.exportDense p config).run supply).1 = .ok text) ∧
          ∃ c, ((ConicProblem.ofProblem p config).run supply).1 = .ok c) := by
  intro vars p
  refine ⟨pairwise_discoverVariables objective lmis, fun s => ?_,
    Problem.make_of_nodup (nodup_discoverVariables objective lmis) objective lmis,
    fun hobjective hentries supply => ?_⟩
  · rw [mem_discoverVariables]
    exact and_iff_left_of_imp (hnamed s)
  · have hsquare : ∀ cutting, p.IsCutSquare cutting := fun cutting blocks hblocks b hb =>
      square_of_mem_canonicalBlocks hblocks (.inr hlmis) hb
    refine ⟨fun sense cutting backend => ?_, fun config => ?_⟩
    · exact exists_numeric_discover hlmis hnamed hobjective hentries sense cutting supply
    · exact exists_exports (hsquare config.cutting)
        (exists_numeric_discover hlmis hnamed hobjective hentries config.sense config.cutting
          supply)
        (exists_numeric_discover hlmis hnamed hobjective hentries config.sense config.cutting
          supply)

/-- The objective `x * y - y * x + 2 * z` and the inequality `diag(x * y + z, x) ⪰ diag(y * x, w)`,
whose left side is given as blocks. The products cancel in the objective and in the difference of
the sides. -/
theorem discoveredVariables_suffice_of_cancelled_products :
    let symbol (name : String) : Expr ℚ := .symbol { name := name }
    let xy : Expr ℚ := .product [symbol "x", symbol "y"]
    let yx : Expr ℚ := .product [symbol "y", symbol "x"]
    let objective : Expr ℚ :=
      .sum [xy, .product [.const (-1), yx], .product [.const 2, symbol "z"]]
    let greater : BlockMatrix ℚ := .blocks
      [SymMatrix.diagonal [.sum [xy, symbol "z"]], SymMatrix.diagonal [symbol "x"]]
    let lesser : BlockMatrix ℚ := .whole (SymMatrix.diagonal [yx, symbol "w"])
    let lmis : List (Lmi ℚ) := [⟨.matrix greater, .matrix lesser, .psd⟩]
    let vars := discoverVariables objective lmis
    let p := Problem.discover objective lmis
    (∀ l ∈ lmis, ∃ lhs rhs kind, Lmi.make lhs rhs kind true = .ok l) ∧
    (∀ s, IsMentioned objective lmis s → s.isNonce = false) ∧
    objective.poly.totalDegree ≤ 1 ∧
    (∀ l ∈ lmis, ∀ m, l.canonicalMatrix = .ok m → ∀ i j e,
      Grid.entry? m.toDense i j = some e → e.poly.totalDegree ≤ 1) ∧
    vars.map Symbol.name = ["w", "x", "y", "z"] ∧
    Problem.make objective lmis vars = .ok p ∧
    ∀ supply,
      (∀ sense cutting (backend : Backend), ∃ numbers,
        ((p.numeric backend.Store sense cutting).run supply).1 = .ok numbers) ∧
      ∀ config,
        (∃ text, ((Sdpa.exportSparse p config).run supply).1 = .ok text) ∧
        (∃ text, ((Sdpa.exportDense p config).run supply).1 = .ok text) ∧
        ∃ c, ((ConicProblem.ofProblem p config).run supply).1 = .ok c := by
  intro symbol xy yx objective greater lesser lmis vars p
  have hsymmetric : ∀ l ∈ lmis, l.lhs.isSymmetric = true ∧ l.rhs.isSymmetric = true := by
    decide +kernel
  have hoperands : ∀ l ∈ lmis, Lmi.checkOperands l.lhs l.rhs = .ok () :=
    List.forall_mem_singleton.2 rfl
  have hlmis : ∀ l ∈ lmis, ∃ lhs rhs kind, Lmi.make lhs rhs kind true = .ok l :=
    Lmi.built_of_checked hoperands hsymmetric
  have hnamed : ∀ s, IsMentioned objective lmis s → s.isNonce = false := by
    have hsymbols : (∀ s ∈ objective.occurrences, s.isNonce = false) ∧
        ∀ l ∈ lmis, ∀ s ∈ l.freeSymbols, s.isNonce = false := by
      decide +kernel
    rintro s (hs | ⟨l, hl, hs⟩)
    · exact hsymbols.1 s hs
    · exact hsymbols.2 l hl s (Lmi.mem_freeSymbols_iff_mentions.2 hs)
  have hobjective : objective.poly.totalDegree ≤ 1 := by
    have haffine : LinearForm.isAffine vars objective.expand.terms = true := by
      decide +kernel
    exact Expr.totalDegree_le_of_isAffine haffine
  have hentries : ∀ l ∈ lmis, ∀ m, l.canonicalMatrix = .ok m → ∀ i j e,
      Grid.entry? m.toDense i j = some e → e.poly.totalDegree ≤ 1 := by
    have haffine : ∀ l ∈ lmis, ∀ m ∈ l.canonicalMatrix.toOption, ∀ e ∈ m.toDense.entries.toList,
        LinearForm.isAffine vars e.expand.terms = true := by
      decide +kernel
    intro l hl m hm i j e he
    exact Expr.totalDegree_le_of_isAffine
      (haffine l hl m (by rw [hm]; rfl) e (Grid.mem_entries.2 ⟨i, j, he⟩))
  have hnames : vars.map Symbol.name = ["w", "x", "y", "z"] := by
    decide +kernel
  obtain ⟨-, -, hmake, hexports⟩ := discoveredVariables_suffice objective lmis hlmis hnamed
  exact ⟨hlmis, hnamed, hobjective, hentries, hnames, hmake, hexports hobjective hentries⟩

end Semidefinite
