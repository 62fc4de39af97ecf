import Mathlib.Data.Finset.Prod
import Semidefinite.Profile.Comparison
import Semidefinite.Proofs.Export.Bounds
import Semidefinite.Proofs.Export.Sparse
import Semidefinite.Proofs.Lmi.Rewriting

/-!
# What a profiled run shows

A profiled run makes all inequalities canonical before it cuts them, and cuts them
before it reads the objective. That a canonical inequality has the canonical matrix
of the one it is made from (`Lmi.canonicalMatrix_of_canonical`) is all it takes for
the run to lower the problem that an export lowers (`Profile.lower_eq`). Its figures
do not depend on the storage, and samples of one problem agree
(`Profile.lower_matches_export`).
-/

namespace Semidefinite

variable {K : Type} [Scalar K]

/-! ## Cells that are not zero -/

section Count
variable {S : Type → Type} [Storage S]

/-- How many cells of a matrix read another number than zero. -/
def Storage.nonzeroCount (m : S K) : Nat :=
  ((Finset.range (shape m).1 ×ˢ Finset.range (shape m).2).filter fun c =>
    (value m c.1 c.2 == 0) = false).card

/-- How many cells of all constants and coefficients read another number than zero. -/
def NumericProblem.nonzeroCount (p : NumericProblem S K) : Nat :=
  (p.blocks.map fun block => (block.matrices.map Storage.nonzeroCount).sum).sum

/-- Each cell that reads another number than zero is listed once. -/
theorem Storage.Lists.length_nonzeros [LawfulZero K] {m : S K} (h : Lists m) :
    (nonzeros m).length = nonzeroCount m := by
  let position := fun c : Cell => (c.row, c.col)
  have hposition : Function.Injective position := by
    rintro ⟨row, col⟩ ⟨row', col'⟩ hc
    cases hc
    rfl
  have hnodup : ((kept m).keys.map position).Nodup := h.ascending.nodup_keys.map hposition
  have hcells : ((kept m).keys.map position).toFinset =
      (Finset.range (shape m).1 ×ˢ Finset.range (shape m).2).filter fun c =>
        (value m c.1 c.2 == 0) = false := by
    ext ⟨row, col⟩
    rw [List.mem_toFinset, Finset.mem_filter, Finset.mem_product, Finset.mem_range,
      Finset.mem_range]
    exact (List.mem_map_of_injective hposition).trans (h.mem_keys_iff (c := ⟨row, col⟩))
  calc (nonzeros m).length = ((kept m).keys.map position).length := by
        rw [List.length_map, Tally.keys, List.length_map]
        rfl
    _ = nonzeroCount m := by
        rw [← List.toFinset_card_of_nodup hnodup, hcells]
        rfl

theorem Profile.countNonzeros_eq [LawfulZero K] {p : NumericProblem S K} (h : p.IsListed) :
    countNonzeros p = p.nonzeroCount := by
  unfold countNonzeros NumericProblem.nonzeroCount
  refine congrArg _ (List.map_congr_left fun block hblock => congrArg _ ?_)
  exact List.map_congr_left fun m hm => (h.lists block hblock m hm).length_nonzeros

end Count

/-! ## Canonical inequalities first -/

/-- A canonical inequality has the canonical matrix that it is made from. -/
theorem Lmi.canonicalMatrix_of_canonical {l l' : Lmi K} (h : l.canonical = .ok l') :
    l'.canonicalMatrix = l.canonicalMatrix := by
  rw [canonical_eq_map, Except.map_eq_ok] at h
  obtain ⟨m, hm, rfl⟩ := h
  rw [hm, canonicalMatrix_mk (Kind.isPositive_canonical l.kind)]

namespace Profile

variable {p : Problem K} {cutting : Cutting} {lmis : List (Lmi K)} {blocks : List (SymMatrix K)}

/-- Canonical inequalities are cut into the blocks of those that they are made from. -/
theorem canonicalBlocks_of_canonicalize (h : canonicalize p = .ok lmis) (cutting : Cutting) :
    canonicalBlocks lmis cutting = canonicalBlocks p.lmis cutting := by
  unfold canonicalBlocks
  refine congrArg _ (mapM_eq_mapM_of_forall₂ ?_).symm
  refine (Except.forall₂_of_mapM_eq_ok h).imp fun l l' hl => ?_
  unfold Lmi.canonicalBlocks
  rw [Lmi.canonicalMatrix_of_canonical hl]

theorem exists_canonicalize (h : canonicalBlocks p.lmis cutting = .ok blocks) :
    ∃ lmis, canonicalize p = .ok lmis := by
  obtain ⟨lists, hlists, -⟩ := Except.map_eq_ok.1 h
  refine Except.exists_mapM_eq_ok fun l hl => ?_
  obtain ⟨own, hown⟩ := Except.exists_mapM_iff.1 ⟨lists, hlists⟩ l hl
  obtain ⟨m, hm, -⟩ := Lmi.canonicalBlocks_eq_ok hown
  exact ⟨_, Lmi.canonical_eq_ok hm⟩

/-! ## The run as a lowering -/

section Runs
variable {S T : Type → Type} [Storage S] [Storage T] {s t : NonceSupply} {run : Lowered}

/-- Once there are blocks, the third stage is what is left of putting the problem into numbers. -/
theorem extract_eq (h : canonicalBlocks p.lmis cutting = .ok blocks) :
    extract S p blocks = p.numeric S .minimize cutting := by
  unfold extract Problem.numeric lowerBlocks
  rw [h]
  rfl

/-- Where the inequalities can be cut, a run puts the problem into numbers and takes stock of its
file. -/
theorem lower_eq (h : canonicalBlocks p.lmis cutting = .ok blocks) :
    lower S p cutting = p.numeric S .minimize cutting >>= fun numbers =>
      Lowering.ofFault (summarize numbers <$> Sdpa.renderSparse numbers none) := by
  obtain ⟨lmis, hlmis⟩ := exists_canonicalize h
  have hcut : ∀ f : List (SymMatrix K) → Lowering LmiError Lowered,
      (Lowering.ofFault (canonicalize p) >>= fun lmis =>
        (ExceptT.mk (pure (canonicalBlocks lmis cutting)) : Lowering LmiError _) >>= f) =
      f blocks := by
    intro f
    rw [hlmis]
    show (ExceptT.mk (pure (canonicalBlocks lmis cutting)) : Lowering LmiError _) >>= f = f blocks
    rw [canonicalBlocks_of_canonicalize hlmis, h]
    rfl
  have hrender : ∀ numbers : NumericProblem S K,
      (Lowering.ofFault (ε := LmiError) (Sdpa.renderSparse numbers none) >>= fun file =>
        pure (summarize numbers file)) =
      Lowering.ofFault (summarize numbers <$> Sdpa.renderSparse numbers none) := by
    intro numbers
    cases Sdpa.renderSparse numbers none <;> rfl
  unfold lower
  rw [hcut, extract_eq h]
  simp only [hrender]

theorem exists_blocks_of_lower (h : ((lower S p cutting).run s).1 = .ok run) :
    ∃ blocks, canonicalBlocks p.lmis cutting = .ok blocks := by
  obtain ⟨after, hrun⟩ : ∃ after, (lower S p cutting).run s = (.ok run, after) :=
    ⟨_, Prod.ext h rfl⟩
  unfold lower at hrun
  rw [Lowering.run_bind_eq_ok] at hrun
  obtain ⟨lmis, between, hlmis, hrun⟩ := hrun
  rw [Lowering.run_ofFault_eq_ok] at hlmis
  rw [Lowering.run_bind_eq_ok] at hrun
  obtain ⟨blocks, between', hblocks, -⟩ := hrun
  have hblocks : canonicalBlocks lmis cutting = .ok blocks := (Prod.mk.inj hblocks).1
  rw [canonicalBlocks_of_canonicalize hlmis.1] at hblocks
  exact ⟨blocks, hblocks⟩

/-- A run succeeds exactly if the problem can be put into numbers and written to a file, and shows
what these have to show. -/
theorem lower_eq_ok :
    ((lower S p cutting).run s).1 = .ok run ↔
      ∃ (numbers : NumericProblem S K) (text : String),
        ((p.numeric S .minimize cutting).run s).1 = .ok numbers ∧
        Sdpa.renderSparse numbers none = .ok text ∧ summarize numbers text = run := by
  constructor
  · intro h
    obtain ⟨blocks, hblocks⟩ := exists_blocks_of_lower h
    rw [lower_eq hblocks] at h
    obtain ⟨numbers, hnumbers, hfile⟩ := Lowering.render_eq_ok.1 h
    obtain ⟨text, htext, hrun⟩ := Except.map_eq_ok.1 hfile
    exact ⟨numbers, text, hnumbers, htext, hrun⟩
  · rintro ⟨numbers, text, hnumbers, htext, hrun⟩
    obtain ⟨after, -, hpencils⟩ := Problem.numeric_eq_ok hnumbers
    obtain ⟨blocks, hblocks, -⟩ := lowerBlocks_eq_ok hpencils
    rw [lower_eq hblocks]
    exact Lowering.render_eq_ok.2 ⟨numbers, hnumbers, Except.map_eq_ok.2 ⟨text, htext, hrun⟩⟩

theorem exportSparse_eq_ok {sense : Sense} {comment : Option String} {b : Backend} {text : String} :
    ((Sdpa.exportSparse p ⟨sense, cutting, comment, some b⟩).run s).1 = .ok text ↔
      ∃ numbers : NumericProblem b.Store K,
        ((p.numeric b.Store sense cutting).run s).1 = .ok numbers ∧
        Sdpa.renderSparse numbers comment = .ok text := by
  refine Lowering.render_eq_ok.trans ?_
  simp only [ExportConfig.numeric_eq_ok]
  rfl

/-! ## Other storages and other nonces -/

theorem summarize_eq {numbers : NumericProblem S K} {numbers' : NumericProblem T K}
    (h : numbers.Agree numbers') (text : String) :
    summarize numbers text = summarize numbers' text := by
  have hnonzeros : countNonzeros numbers = countNonzeros numbers' := by
    unfold countNonzeros
    refine congrArg _ (map_eq_map_of_forall₂ (h.blocks.imp fun block block' hblock => ?_))
    have hlists : List.Forall₂ Storage.Agree (block.constant :: block.coefficients)
        (block'.constant :: block'.coefficients) := .cons hblock.constant hblock.coefficients
    exact congrArg _ (map_eq_map_of_forall₂ (hlists.imp fun _ _ hm => congrArg _ hm.nonzeros))
  unfold summarize
  rw [h.blockSizes, hnonzeros]

variable [FaithfulStorage S K] [FaithfulStorage T K]

theorem lower_eq_ok_of_readAlike (h : p.ReadAlike .minimize cutting s t)
    (hrun : ((lower S p cutting).run s).1 = .ok run) :
    ((lower T p cutting).run t).1 = .ok run := by
  obtain ⟨numbers, text, hnumbers, htext, hrun⟩ := lower_eq_ok.1 hrun
  obtain ⟨count, hstep⟩ := Problem.inStep_numeric (S := S) (T := T) h
  obtain ⟨numbers', hnumbers', hagree⟩ := hstep.exists_of_ok hnumbers
  rw [Sdpa.renderSparse_eq hagree] at htext
  rw [summarize_eq hagree] at hrun
  exact lower_eq_ok.2 ⟨numbers', text, hnumbers', htext, hrun⟩

/-- A run shows the same on any two storages. -/
theorem lower_eq_ok_iff (h : p.ReadAlike .minimize cutting s t) :
    ((lower S p cutting).run s).1 = .ok run ↔ ((lower T p cutting).run t).1 = .ok run :=
  ⟨lower_eq_ok_of_readAlike h, lower_eq_ok_of_readAlike h.symm⟩

end Runs

end Profile

/-! ## Nonces of a run -/

namespace Problem

variable {p : Problem K} {cutting : Cutting} {s t : NonceSupply}

/-- Either the same nonces are drawn from both supplies, or fresh ones. -/
def DrawsAlike (p : Problem K) (cutting : Cutting) (s t : NonceSupply) : Prop :=
  s = t ∨ p.DrawsFresh cutting s ∧ p.DrawsFresh cutting t

theorem DrawsAlike.readAlike [LawfulOne K] (h : p.DrawsAlike cutting s t) (sense : Sense) :
    p.ReadAlike sense cutting s t := by
  rcases h with rfl | ⟨hs, ht⟩
  · exact p.readAlike_self sense cutting s
  · exact readAlike_of_fresh hs ht

end Problem

/-! ## Comparing samples -/

namespace Profile

/-- The sample is one of a run on the problem, with any storage and with fresh nonces. -/
def Sample.IsOf (sample : Sample) (p : Problem K) (cutting : Cutting) : Prop :=
  ∃ (shape : Synthetic.Shape) (backend : Backend) (repetition : Nat) (supply : NonceSupply)
    (run : Lowered) (extractTime totalTime : Float),
    p.DrawsFresh cutting supply ∧
    ((lower backend.Store p cutting).run supply).1 = .ok run ∧
    sample = Sample.ofLowered shape backend repetition run extractTime totalTime

theorem Sample.IsOf.bytes_eq [LawfulOne K] {p : Problem K} {cutting : Cutting}
    {sample sample' : Sample} (h : sample.IsOf p cutting) (h' : sample'.IsOf p cutting) :
    sample.bytes = sample'.bytes := by
  obtain ⟨_, backend, _, supply, run, _, _, hfresh, hrun, rfl⟩ := h
  obtain ⟨_, backend', _, supply', run', _, _, hfresh', hrun', rfl⟩ := h'
  have hread := (Problem.DrawsAlike.readAlike (.inr ⟨hfresh, hfresh'⟩) .minimize :
    p.ReadAlike .minimize cutting supply supply')
  rw [lower_eq_ok_iff (T := backend'.Store) hread, hrun'] at hrun
  cases hrun
  rfl

theorem sameSize_eq_true {samples : List Sample}
    (h : ∀ a ∈ samples, ∀ b ∈ samples, a.bytes = b.bytes) : sameSize samples = true := by
  cases samples with
  | nil => rfl
  | cons first rest =>
    refine List.all_eq_true.2 fun a ha => beq_iff_eq.2 ?_
    exact h a (List.mem_cons_of_mem _ ha) first List.mem_cons_self

/-- A row tells whether the samples of its case have files of one size. -/
theorem agrees_of_mem_compareBackends {samples : List Sample} {row : Row}
    (h : row ∈ compareBackends samples) :
    row.agrees = sameSize (samples.filter (·.caseName == row.caseName)) := by
  obtain ⟨caseName, -, hrow⟩ := List.mem_flatMap.1 h
  obtain ⟨backend, -, hrow⟩ := List.mem_filterMap.1 hrow
  obtain ⟨first, hfirst, rfl⟩ := Option.map_eq_some_iff.1 hrow
  have hmem := List.mem_of_mem_filter (List.mem_of_mem_head? hfirst)
  have hname : first.caseName = caseName := beq_iff_eq.1 (List.mem_filter.1 hmem).2
  rw [hname]

/-- A profiled run succeeds exactly if the sparse file of the problem can be written, to minimize
and without a comment. It shows the sizes of the blocks that the problem in numbers has, the length
of the file, and how many cells of all matrices are not zero. All storages show the same, so the
samples of one problem agree. Runs are compared that draw the same nonces or fresh ones; they are
fresh as long as the serial numbers have not started again (`Problem.drawsFresh_of_drawn`). -/
theorem lower_matches_export (p : Problem Float) (cutting : Cutting) :
    let config : Backend → ExportConfig := fun b =>
      { sense := .minimize, cutting, comment := none, backend := some b }
    (∀ (b : Backend) (s t : NonceSupply), p.DrawsAlike cutting s t →
      ((∃ run, ((lower b.Store p cutting).run s).1 = .ok run) ↔
        ∃ text, ((Sdpa.exportSparse p (config b)).run t).1 = .ok text) ∧
      ∀ run, ((lower b.Store p cutting).run s).1 = .ok run →
        ∃ (text : String) (numbers : NumericProblem b.Store Float),
          ((Sdpa.exportSparse p (config b)).run t).1 = .ok text ∧
          ((p.numeric b.Store .minimize cutting).run t).1 = .ok numbers ∧
          run.blockSizes = numbers.blockSizes ∧ run.bytes = text.utf8ByteSize ∧
          run.nonzeros = numbers.nonzeroCount) ∧
    (∀ (b b' : Backend) (s t : NonceSupply), p.DrawsAlike cutting s t → ∀ run,
      ((lower b.Store p cutting).run s).1 = .ok run ↔
        ((lower b'.Store p cutting).run t).1 = .ok run) ∧
    ∀ (samples : List Sample) (caseName : String),
      (∀ sample ∈ samples, sample.caseName = caseName → sample.IsOf p cutting) →
      ∀ row ∈ compareBackends samples, row.caseName = caseName → row.agrees = true := by
  intro config
  have hexport : ∀ (b : Backend) (s t : NonceSupply), p.DrawsAlike cutting s t → ∀ run,
      ((lower b.Store p cutting).run s).1 = .ok run ↔
        ∃ (numbers : NumericProblem b.Store Float) (text : String),
          ((p.numeric b.Store .minimize cutting).run t).1 = .ok numbers ∧
          Sdpa.renderSparse numbers none = .ok text ∧ summarize numbers text = run :=
    fun b s t halike run =>
      (lower_eq_ok_iff (halike.readAlike .minimize)).trans lower_eq_ok
  refine ⟨fun b s t halike => ⟨⟨?_, ?_⟩, fun run hrun => ?_⟩,
    fun b b' s t halike run => lower_eq_ok_iff (halike.readAlike .minimize), ?_⟩
  · rintro ⟨run, hrun⟩
    obtain ⟨numbers, text, hnumbers, htext, -⟩ := (hexport b s t halike run).1 hrun
    exact ⟨text, exportSparse_eq_ok.2 ⟨numbers, hnumbers, htext⟩⟩
  · rintro ⟨text, hfile⟩
    obtain ⟨numbers, hnumbers, htext⟩ := exportSparse_eq_ok.1 hfile
    exact ⟨_, (hexport b s t halike _).2 ⟨numbers, text, hnumbers, htext, rfl⟩⟩
  · obtain ⟨numbers, text, hnumbers, htext, rfl⟩ := (hexport b s t halike run).1 hrun
    exact ⟨text, numbers, exportSparse_eq_ok.2 ⟨numbers, hnumbers, htext⟩, hnumbers, rfl, rfl,
      countNonzeros_eq (Problem.isListed_numeric hnumbers).1⟩
  · intro samples caseName hsamples row hrow hcase
    rw [agrees_of_mem_compareBackends hrow, hcase]
    have hof : ∀ sample ∈ samples.filter (·.caseName == caseName), sample.IsOf p cutting := by
      intro sample hsample
      obtain ⟨hmem, hname⟩ := List.mem_filter.1 hsample
      exact hsamples sample hmem (beq_iff_eq.1 hname)
    exact sameSize_eq_true fun a ha b hb => (hof a ha).bytes_eq (hof b hb)

/-- Minimizing `x - y`, where `y` is a nonce drawn before, subject to
`diag(x, m) ⪯ diag(y, 2, 2 * x)` for the matrix `m` of rows `(1, 2 * (x + 0.5))` and `(2 * x + 1, y)`. The left side carries blocks,
the right one is whole. One sample is kept in every cell and one in triplets, with nonces of two
supplies. -/
theorem lower_matches_export_of_unlike_sides :
    let x : Symbol := { name := "x" }
    let y : Symbol := NonceSupply.first.peek
    let m : SymMatrix Float := Grid.tabulate 2 2 fun i j =>
      if i < j then .product [.const 2, .sum [.symbol x, .const 0.5]]
      else if j < i then .sum [.product [.const 2, .symbol x], .const 1]
      else if i.val = 0 then .const 1 else .symbol y
    let bound : SymMatrix Float :=
      SymMatrix.diagonal [.symbol y, .const 2, .product [.const 2, .symbol x]]
    let l : Lmi Float := ⟨.matrix (.blocks [SymMatrix.diagonal [.symbol x], m]),
      .matrix (.whole bound), .nsd⟩
    let p : Problem Float :=
      ⟨.sum [.symbol x, .product [.const (-1), .symbol y]], [l], [x, y]⟩
    let config : Backend → ExportConfig := fun b =>
      { sense := .minimize, cutting := .finest, comment := none, backend := some b }
    let shape : Synthetic.Shape := ⟨2, 2, 2⟩
    let supply : NonceSupply := ⟨1⟩
    let supply' : NonceSupply := ⟨41⟩
    p.DrawsAlike .finest supply supply' ∧
    ∃ run, ((lower Backend.dense.Store p .finest).run supply).1 = .ok run ∧
      run.blockSizes = [1, 2] ∧
      (∃ (text : String) (numbers : NumericProblem Backend.dense.Store Float),
        ((Sdpa.exportSparse p (config .dense)).run supply').1 = .ok text ∧
        ((p.numeric Backend.dense.Store .minimize .finest).run supply').1 = .ok numbers ∧
        run.blockSizes = numbers.blockSizes ∧ run.bytes = text.utf8ByteSize ∧
        run.nonzeros = numbers.nonzeroCount) ∧
      ((lower Backend.triplets.Store p .finest).run supply').1 = .ok run ∧
      let samples := [Sample.ofLowered shape .dense 1 run 4.5 6.25,
        Sample.ofLowered shape .triplets 2 run 1.5 3.25]
      (∀ sample ∈ samples, sample.caseName = shape.name → sample.IsOf p .finest) ∧
      ∀ row ∈ compareBackends samples, row.caseName = shape.name → row.agrees = true := by
  intro x y m bound l p config shape supply supply'
  have hdrawn : ∀ s ∈ p.symbols, ∀ n, s.serial = some n → n < supply.next ∧ n < supply'.next := by
    have hserials : ∀ s ∈ p.symbols,
        s.serial.all fun n => n < supply.next ∧ n < supply'.next := by
      decide +kernel
    intro s hs n hn
    have hall := hserials s hs
    rw [hn] at hall
    exact of_decide_eq_true hall
  have hfresh : p.DrawsFresh .finest supply :=
    Problem.drawsFresh_of_drawn (fun s hs n hn => (hdrawn s hs n hn).1) (by decide +kernel)
  have hfresh' : p.DrawsFresh .finest supply' :=
    Problem.drawsFresh_of_drawn (fun s hs n hn => (hdrawn s hs n hn).2) (by decide +kernel)
  have halike : p.DrawsAlike .finest supply supply' := .inr ⟨hfresh, hfresh'⟩
  have hsizes : ((lower Backend.dense.Store p .finest).run supply).1.toOption.map
      Lowered.blockSizes = some [1, 2] := by
    decide +kernel
  obtain ⟨hexport, hstorages, hsamples⟩ := lower_matches_export p .finest
  cases hrun : ((lower Backend.dense.Store p .finest).run supply).1 with
  | error e =>
    rw [hrun] at hsizes
    cases hsizes
  | ok run =>
    rw [hrun] at hsizes
    have hrun' := (hstorages .dense .triplets supply supply' halike run).1 hrun
    have hof : ∀ sample ∈ [Sample.ofLowered shape .dense 1 run 4.5 6.25,
        Sample.ofLowered shape .triplets 2 run 1.5 3.25], sample.caseName = shape.name →
        sample.IsOf p .finest := by
      intro sample hsample _
      rcases List.mem_pair.1 hsample with rfl | rfl
      · exact ⟨shape, .dense, 1, supply, run, 4.5, 6.25, hfresh, hrun, rfl⟩
      · exact ⟨shape, .triplets, 2, supply', run, 1.5, 3.25, hfresh', hrun', rfl⟩
    exact ⟨halike, run, rfl, Option.some.inj hsizes,
      (hexport .dense supply supply' halike).2 run hrun, hrun', hof, hsamples _ shape.name hof⟩

end Profile

end Semidefinite
