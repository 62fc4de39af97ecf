import Mathlib.Algebra.BigOperators.Group.List.Lemmas
import Semidefinite.Proofs.DoubleOrder
import Semidefinite.Proofs.Expr.Occurrences
import Semidefinite.Proofs.Profiling

/-!
# Comparing backends divides up the samples

Samples are divided up by their pairs of case and backend. There is one row for each
pair, in order (`forall₂_rows`), and a row sums up the samples of its pair
(`Row.Summarizes`). What a row has to say but for its figures is fixed by which samples
there are, so their order does not matter (`Row.Summarizes.sameResults`).
-/

namespace Semidefinite.Profile

/-! ## The fastest time -/

/-- A time of one of the samples that no other undercuts. -/
structure IsFastest (time : Sample → Float) (samples : List Sample) (best : Float) : Prop where
  attained : ∃ s ∈ samples, time s = best
  least : ∀ s ∈ samples, best ≤ time s

theorem lesser_eq {a b : Float} (hb : b.isNaN = false) : lesser a b = if a < b then a else b := by
  unfold lesser
  simp only [hb, Bool.or_false, decide_eq_true_iff]

theorem lesser_spec {a b : Float} (ha : a.isNaN = false) (hb : b.isNaN = false) :
    (lesser a b = a ∨ lesser a b = b) ∧ lesser a b ≤ a ∧ lesser a b ≤ b := by
  rw [lesser_eq hb]
  split
  · rename_i hlt
    exact ⟨.inl rfl, Double.le_refl ha, Double.le_of_lt ha hb hlt⟩
  · rename_i hlt
    exact ⟨.inr rfl, Double.le_of_not_lt ha hb hlt, Double.le_refl hb⟩

theorem foldl_lesser_spec {acc : Float} {times : List Float}
    (h : ∀ t ∈ acc :: times, t.isNaN = false) :
    times.foldl lesser acc ∈ acc :: times ∧ ∀ t ∈ acc :: times, times.foldl lesser acc ≤ t := by
  induction times generalizing acc with
  | nil =>
    have hacc := h acc List.mem_cons_self
    exact ⟨List.mem_cons_self, List.forall_mem_singleton.2 (Double.le_refl hacc)⟩
  | cons t rest ih =>
    obtain ⟨hacc, ht, hrest⟩ : acc.isNaN = false ∧ t.isNaN = false ∧
        ∀ t ∈ rest, t.isNaN = false := by
      simpa only [List.forall_mem_cons] using h
    obtain ⟨hone, hleft, hright⟩ := lesser_spec hacc ht
    have hlesser : (lesser acc t).isNaN = false := by
      rcases hone with heq | heq
      · rwa [heq]
      · rwa [heq]
    have hall : ∀ u ∈ lesser acc t :: rest, u.isNaN = false :=
      List.forall_mem_cons.2 ⟨hlesser, hrest⟩
    obtain ⟨hmem, hle⟩ := ih hall
    have hbest : (rest.foldl lesser (lesser acc t)).isNaN = false := hall _ hmem
    have hfirst := hle _ List.mem_cons_self
    rw [List.foldl_cons]
    refine ⟨?_, ?_⟩
    · rcases List.mem_cons.1 hmem with heq | hmem
      · rw [heq]
        rcases hone with hone | hone
        · simp [hone]
        · simp [hone]
      · exact List.mem_cons_of_mem _ (List.mem_cons_of_mem _ hmem)
    · refine List.forall_mem_cons.2 ⟨Double.le_trans hbest hlesser hacc hfirst hleft, ?_⟩
      refine List.forall_mem_cons.2 ⟨Double.le_trans hbest hlesser ht hfirst hright, ?_⟩
      exact fun u hu => hle u (List.mem_cons_of_mem _ hu)

section Fastest
variable {time : Sample → Float} {samples samples' : List Sample}
  (h : ∀ s ∈ samples, (time s).isNaN = false)
include h

/-- The infinity that the search starts from gives way to the first time. -/
theorem isFastest_fastest (hne : samples ≠ []) : IsFastest time samples (fastest time samples) := by
  cases samples with
  | nil => exact absurd rfl hne
  | cons first rest =>
    obtain ⟨hfirst, -⟩ := List.forall_mem_cons.1 h
    have hstart : fastest time (first :: rest) = (rest.map time).foldl lesser (time first) := by
      unfold fastest
      rw [List.map_cons, List.foldl_cons, lesser_eq hfirst, if_neg (Double.not_infinity_lt _)]
    have htimes : ∀ t ∈ (first :: rest).map time, t.isNaN = false := List.forall_mem_map.2 h
    obtain ⟨hmem, hle⟩ := foldl_lesser_spec htimes
    rw [hstart]
    exact ⟨List.mem_map.1 hmem, List.forall_mem_map.1 hle⟩

theorem IsFastest.sameNumber {a b : Float} (ha : IsFastest time samples a)
    (hb : IsFastest time samples b) : Double.SameNumber a b := by
  obtain ⟨s, hs, rfl⟩ := ha.attained
  obtain ⟨t, ht, rfl⟩ := hb.attained
  exact .of_le (h s hs) (h t ht) (ha.least t ht) (hb.least s hs)

end Fastest

theorem IsFastest.perm {time : Sample → Float} {samples samples' : List Sample} {best : Float}
    (hbest : IsFastest time samples best) (hperm : samples.Perm samples') :
    IsFastest time samples' best where
  attained := by
    obtain ⟨s, hs, htime⟩ := hbest.attained
    exact ⟨s, hperm.mem_iff.1 hs, htime⟩
  least s hs := hbest.least s (hperm.mem_iff.2 hs)

/-! ## Pairs of case and backend -/

def Sample.pair (s : Sample) : String × String :=
  (s.caseName, s.backend)

def Row.pair (r : Row) : String × String :=
  (r.caseName, r.backend)

def ofPair (samples : List Sample) (pair : String × String) : List Sample :=
  samples.filter (·.pair == pair)

/-- The pairs that occur, by case and then by backend. -/
def pairs (samples : List Sample) : List (String × String) :=
  (ascending (samples.map Sample.caseName)).flatMap fun caseName =>
    (ascending ((samples.filter (·.caseName == caseName)).map Sample.backend)).map (caseName, ·)

def row? (samples : List Sample) (pair : String × String) : Option Row :=
  Row.ofSamples (samples.filter (·.caseName == pair.1)) pair.2

theorem compareBackends_eq (samples : List Sample) :
    compareBackends samples = (pairs samples).filterMap (row? samples) := by
  unfold pairs
  rw [List.filterMap_flatMap]
  simp only [List.filterMap_map]
  rfl

section Pairs
variable {samples samples' : List Sample} {pair : String × String}

theorem filter_backend (samples : List Sample) (pair : String × String) :
    (samples.filter (·.caseName == pair.1)).filter (·.backend == pair.2) = ofPair samples pair := by
  rw [List.filter_filter]
  refine List.filter_congr fun s _ => ?_
  exact Bool.and_comm _ _

theorem mem_ofPair {s : Sample} : s ∈ ofPair samples pair ↔ s ∈ samples ∧ s.pair = pair := by
  unfold ofPair
  rw [List.mem_filter, beq_iff_eq]

theorem mem_pairs : pair ∈ pairs samples ↔ ∃ s ∈ samples, s.pair = pair := by
  obtain ⟨caseName, backend⟩ := pair
  simp only [pairs, List.mem_flatMap, List.mem_map, mem_ascending, List.mem_filter, beq_iff_eq,
    Prod.mk.injEq, Sample.pair]
  constructor
  · rintro ⟨_, -, _, ⟨s, ⟨hs, rfl⟩, rfl⟩, rfl, rfl⟩
    exact ⟨s, hs, rfl, rfl⟩
  · rintro ⟨s, hs, rfl, rfl⟩
    exact ⟨s.caseName, ⟨s, hs, rfl⟩, s.backend, ⟨s, ⟨hs, rfl⟩, rfl⟩, rfl, rfl⟩

def Before (p q : String × String) : Prop :=
  p.1 < q.1 ∨ p.1 = q.1 ∧ p.2 < q.2

theorem Before.ne {p q : String × String} (h : Before p q) : p ≠ q := by
  rintro rfl
  rcases h with hlt | ⟨-, hlt⟩
  · exact lt_irrefl _ hlt
  · exact lt_irrefl _ hlt

theorem Before.not_symm {p q : String × String} (h : Before p q) : ¬ Before q p := by
  rcases h with hlt | ⟨heq, hlt⟩
  · rintro (hgt | ⟨hsame, -⟩)
    · exact lt_asymm hlt hgt
    · exact hlt.ne hsame.symm
  · rintro (hgt | ⟨-, hgt⟩)
    · exact hgt.ne heq.symm
    · exact lt_asymm hlt hgt

theorem ascending_pairs (samples : List Sample) : (pairs samples).Pairwise Before := by
  have hlt : ∀ names : List String, (ascending names).Pairwise (· < ·) :=
    fun names => (pairwise_ascending names).imp compare_lt_iff_lt.1
  unfold pairs
  rw [List.pairwise_flatMap]
  refine ⟨fun caseName _ => List.pairwise_map.2 ((hlt _).imp fun h => .inr ⟨rfl, h⟩), ?_⟩
  refine (hlt _).imp fun h p hp q hq => ?_
  obtain ⟨_, -, rfl⟩ := List.mem_map.1 hp
  obtain ⟨_, -, rfl⟩ := List.mem_map.1 hq
  exact .inl h

theorem nodup_pairs (samples : List Sample) : (pairs samples).Nodup :=
  (ascending_pairs samples).imp Before.ne

theorem sum_length_ofPair (samples : List Sample) :
    ((pairs samples).map fun pair => (ofPair samples pair).length).sum = samples.length := by
  have hdedup : (pairs samples).Perm (samples.map Sample.pair).dedup := by
    refine (List.perm_ext_iff_of_nodup (nodup_pairs samples) (List.nodup_dedup _)).2 fun pair => ?_
    rw [mem_pairs, List.mem_dedup, List.mem_map]
  have htotal := List.sum_map_count_dedup_eq_length (samples.map Sample.pair)
  rw [List.length_map] at htotal
  rw [← htotal, (hdedup.map _).sum_eq]
  refine congrArg List.sum (List.map_congr_left fun pair _ => ?_)
  have hfilter : ofPair samples pair = samples.filter fun s => decide (s.pair = pair) :=
    List.filter_congr fun s _ => Bool.eq_iff_iff.2 (by simp)
  rw [hfilter, ← List.countP_eq_length_filter]
  exact (List.countP_map (p := fun key => decide (key = pair))).symm

theorem pairs_perm (h : samples.Perm samples') : pairs samples = pairs samples' := by
  refine eq_of_ordered Before.not_symm (ascending_pairs samples) (ascending_pairs samples')
    fun pair => ?_
  simp only [mem_pairs, h.mem_iff]

end Pairs

/-! ## Rows -/

/-- A sample whose times are numbers. -/
structure Sample.IsTimed (s : Sample) : Prop where
  extract : s.extractTime.isNaN = false
  total : s.totalTime.isNaN = false

/-- What the row of a pair says of the samples. -/
structure Row.Summarizes (samples : List Sample) (pair : String × String) (r : Row) : Prop where
  pair_eq : r.pair = pair
  runs : r.runs = (ofPair samples pair).length
  figures : ∃ first, (ofPair samples pair).head? = some first ∧
    r.nonzeros = first.nonzeros ∧ r.bytes = first.bytes ∧
    r.blocks = first.blockSizes.length ∧ r.largestBlock = first.blockSizes.max?.getD 0
  bestExtract : IsFastest Sample.extractTime (ofPair samples pair) r.bestExtract
  bestTotal : IsFastest Sample.totalTime (ofPair samples pair) r.bestTotal
  extractVsDense : ∀ q, r.extractVsDense = some q ↔
    ∃ dense, IsFastest Sample.extractTime (ofPair samples (pair.1, Backend.dense.text)) dense ∧
      0 < dense ∧ r.bestExtract / dense = q
  agrees : r.agrees = true ↔ ∀ s ∈ samples, ∀ t ∈ samples,
    s.caseName = pair.1 → t.caseName = pair.1 → s.bytes = t.bytes

section Parts
variable {samples : List Sample}

theorem sameSize_iff : sameSize samples = true ↔
    ∀ s ∈ samples, ∀ t ∈ samples, s.bytes = t.bytes := by
  refine ⟨fun h => ?_, sameSize_eq_true⟩
  cases samples with
  | nil => exact fun _ hs => absurd hs List.not_mem_nil
  | cons first rest =>
    have hfirst : ∀ s ∈ first :: rest, s.bytes = first.bytes :=
      List.forall_mem_cons.2 ⟨rfl, fun s hs => beq_iff_eq.1 (List.all_eq_true.1 h s hs)⟩
    exact fun s hs t ht => (hfirst s hs).trans (hfirst t ht).symm

theorem foldl_max_eq (sizes : List Nat) : sizes.foldl max 0 = sizes.max?.getD 0 := by
  cases sizes with
  | nil => rfl
  | cons n rest =>
    rw [List.foldl_cons, Nat.zero_max]
    rfl

theorem denseExtract?_eq_some_iff (h : ∀ s ∈ samples, s.IsTimed) {best : Float} :
    denseExtract? samples = some best ↔
      IsFastest Sample.extractTime (samples.filter (·.backend == Backend.dense.text)) best ∧
        0 < best := by
  have htimes : ∀ s ∈ samples.filter (·.backend == Backend.dense.text),
      s.extractTime.isNaN = false :=
    fun s hs => (h s (List.mem_of_mem_filter hs)).extract
  unfold denseExtract?
  generalize samples.filter (·.backend == Backend.dense.text) = dense at htimes ⊢
  cases dense with
  | nil =>
    refine ⟨nofun, fun ⟨hbest, _⟩ => ?_⟩
    obtain ⟨s, hs, -⟩ := hbest.attained
    cases hs
  | cons first rest =>
    have hfastest := isFastest_fastest htimes (List.cons_ne_nil first rest)
    constructor
    · intro hsome
      obtain ⟨hpos, hbest⟩ := Option.ite_none_right_eq_some.1 hsome
      obtain rfl := Option.some.inj hbest
      exact ⟨hfastest, hpos⟩
    · rintro ⟨hbest, hpos⟩
      obtain rfl := (hbest.sameNumber htimes hfastest).eq_of_pos hpos
      exact if_pos hpos

end Parts

def Row.ofFirst (samples : List Sample) (pair : String × String) (first : Sample) : Row where
  caseName := first.caseName
  backend := pair.2
  runs := (ofPair samples pair).length
  blocks := first.blockSizes.length
  largestBlock := first.blockSizes.foldl max 0
  nonzeros := first.nonzeros
  bytes := first.bytes
  bestExtract := fastest Sample.extractTime (ofPair samples pair)
  bestTotal := fastest Sample.totalTime (ofPair samples pair)
  extractVsDense := (denseExtract? (samples.filter (·.caseName == pair.1))).map
    (fastest Sample.extractTime (ofPair samples pair) / ·)
  agrees := sameSize (samples.filter (·.caseName == pair.1))

theorem row?_eq (samples : List Sample) (pair : String × String) :
    row? samples pair = (ofPair samples pair).head?.map (Row.ofFirst samples pair) := by
  unfold row? Row.ofSamples
  rw [filter_backend]
  rfl

section Rows
variable {samples samples' : List Sample} {pair : String × String} {r r' : Row}

theorem exists_row? (h : pair ∈ pairs samples) : ∃ r, row? samples pair = some r := by
  obtain ⟨s, hs, hpair⟩ := mem_pairs.1 h
  have hmem : s ∈ ofPair samples pair := mem_ofPair.2 ⟨hs, hpair⟩
  rw [row?_eq, List.head?_eq_some_head (List.ne_nil_of_mem hmem)]
  exact ⟨_, rfl⟩

theorem summarizes_of_row? (h : ∀ s ∈ samples, s.IsTimed) (hrow : row? samples pair = some r) :
    r.Summarizes samples pair := by
  rw [row?_eq, Option.map_eq_some_iff] at hrow
  obtain ⟨first, hfirst, rfl⟩ := hrow
  have hmem := List.mem_of_mem_head? hfirst
  have hpair := (mem_ofPair.1 hmem).2
  have htimed : ∀ s ∈ ofPair samples pair, s.IsTimed := fun s hs => h s (mem_ofPair.1 hs).1
  have hcase : ∀ s ∈ samples.filter (·.caseName == pair.1), s.IsTimed :=
    fun s hs => h s (List.mem_of_mem_filter hs)
  exact {
    pair_eq := Prod.ext (show first.caseName = pair.1 from congrArg Prod.fst hpair) rfl
    runs := rfl
    figures := ⟨first, hfirst, rfl, rfl, rfl, foldl_max_eq first.blockSizes⟩
    bestExtract := isFastest_fastest (fun s hs => (htimed s hs).extract) (List.ne_nil_of_mem hmem)
    bestTotal := isFastest_fastest (fun s hs => (htimed s hs).total) (List.ne_nil_of_mem hmem)
    extractVsDense := fun q => by
      refine Option.map_eq_some_iff.trans (exists_congr fun dense => ?_)
      rw [denseExtract?_eq_some_iff hcase, filter_backend samples (pair.1, _), and_assoc]
      rfl
    agrees := by
      refine sameSize_iff.trans ?_
      simp only [List.mem_filter, beq_iff_eq]
      constructor
      · exact fun hsize s hs t ht hsc htc => hsize s ⟨hs, hsc⟩ t ⟨ht, htc⟩
      · exact fun hsize s hs t ht => hsize s hs.1 t ht.1 hs.2 ht.2 }

theorem forall₂_rows (h : ∀ s ∈ samples, s.IsTimed) :
    List.Forall₂ (fun pair r => r.Summarizes samples pair) (pairs samples)
      (compareBackends samples) := by
  have hrows : ∀ keys : List (String × String), (∀ pair ∈ keys, pair ∈ pairs samples) →
      List.Forall₂ (fun pair r => r.Summarizes samples pair) keys
        (keys.filterMap (row? samples)) := by
    intro keys hkeys
    induction keys with
    | nil => exact .nil
    | cons pair rest ih =>
      obtain ⟨hpair, hrest⟩ := List.forall_mem_cons.1 hkeys
      obtain ⟨r, hr⟩ := exists_row? hpair
      rw [List.filterMap_cons_some hr]
      exact .cons (summarizes_of_row? h hr) (ih hrest)
  rw [compareBackends_eq]
  exact hrows _ fun _ hpair => hpair

/-! ## Other orders of the samples -/

/-- Rows of one pair that say the same but for the figures of the first sample. -/
structure Row.SameResults (r r' : Row) : Prop where
  pair_eq : r.pair = r'.pair
  runs : r.runs = r'.runs
  bestExtract : Double.SameNumber r.bestExtract r'.bestExtract
  bestTotal : Double.SameNumber r.bestTotal r'.bestTotal
  extractVsDense : Option.Rel Double.SameNumber r.extractVsDense r'.extractVsDense
  agrees : r.agrees = r'.agrees

/-- What is summed up does not depend on the order of the samples. -/
theorem Row.Summarizes.sameResults (h : ∀ s ∈ samples, s.IsTimed) (hperm : samples.Perm samples')
    (hr : r.Summarizes samples pair) (hr' : r'.Summarizes samples' pair) : r.SameResults r' := by
  have hpair : ∀ key, (ofPair samples key).Perm (ofPair samples' key) := fun key => hperm.filter _
  have htimed : ∀ s ∈ ofPair samples pair, s.IsTimed := fun s hs => h s (mem_ofPair.1 hs).1
  have hextract : Double.SameNumber r.bestExtract r'.bestExtract :=
    hr.bestExtract.sameNumber (fun s hs => (htimed s hs).extract)
      (hr'.bestExtract.perm (hpair pair).symm)
  refine ⟨hr.pair_eq.trans hr'.pair_eq.symm, ?_, hextract, ?_, ?_, ?_⟩
  · rw [hr.runs, hr'.runs, (hpair pair).length_eq]
  · exact hr.bestTotal.sameNumber (fun s hs => (htimed s hs).total)
      (hr'.bestTotal.perm (hpair pair).symm)
  · cases hq : r.extractVsDense with
    | none =>
      cases hq' : r'.extractVsDense with
      | none => exact .none
      | some q' =>
        obtain ⟨dense, hdense, hpos, -⟩ := (hr'.extractVsDense q').1 hq'
        have hsome := (hr.extractVsDense _).2 ⟨dense, hdense.perm (hpair _).symm, hpos, rfl⟩
        rw [hq] at hsome
        cases hsome
    | some q =>
      obtain ⟨dense, hdense, hpos, rfl⟩ := (hr.extractVsDense q).1 hq
      rw [(hr'.extractVsDense _).2 ⟨dense, hdense.perm (hpair _), hpos, rfl⟩]
      exact .some (hextract.div hpos)
  · rw [Bool.eq_iff_iff, hr.agrees, hr'.agrees]
    simp only [hperm.mem_iff]

theorem sameResults_compareBackends (h : ∀ s ∈ samples, s.IsTimed)
    (hperm : samples.Perm samples') :
    List.Forall₂ Row.SameResults (compareBackends samples) (compareBackends samples') := by
  have hrows := forall₂_rows h
  have hrows' := forall₂_rows fun s hs => h s (hperm.mem_iff.2 hs)
  rw [← pairs_perm hperm] at hrows'
  -- both lists have their rows from the same pairs
  generalize compareBackends samples = rows at hrows ⊢
  generalize compareBackends samples' = rows' at hrows' ⊢
  generalize pairs samples = keys at hrows hrows'
  induction hrows generalizing rows' with
  | nil =>
    cases hrows'
    exact .nil
  | cons hr _ ih =>
    cases hrows' with
    | cons hr' hrest' => exact .cons (hr.sameResults h hperm hr') (ih _ hrest')

end Rows

/-- Comparing divides up the samples. There is one row for each pair of a case and a backend that
occurs, by case name and then by backend, and each sample is a run of one row. A row has the best
times and the number of its pair's samples and the figures of the first of them, the ratio to the
best dense extraction of its case where that is positive, and whether all files of its case have
one size. Another order of the samples changes none of this but the figures, and the sign of a time
or ratio that is zero. -/
theorem compareBackends_partition (samples : List Sample) (h : ∀ s ∈ samples, s.IsTimed) :
    ((compareBackends samples).map Row.pair).Pairwise Before ∧
    (∀ pair, (∃ r ∈ compareBackends samples, r.pair = pair) ↔ ∃ s ∈ samples, s.pair = pair) ∧
    ((compareBackends samples).map Row.runs).sum = samples.length ∧
    (∀ r ∈ compareBackends samples, r.Summarizes samples r.pair) ∧
    (∀ r ∈ compareBackends samples, ∀ r' ∈ compareBackends samples,
      r.caseName = r'.caseName → r.agrees = r'.agrees) ∧
    ∀ samples', samples.Perm samples' →
      List.Forall₂ Row.SameResults (compareBackends samples) (compareBackends samples') := by
  have hrows := forall₂_rows h
  have hpairs : pairs samples = (compareBackends samples).map Row.pair := by
    rw [← List.map_id (pairs samples)]
    exact map_eq_map_of_forall₂ (hrows.imp fun _ _ hr => hr.pair_eq.symm)
  have hruns : (pairs samples).map (fun pair => (ofPair samples pair).length) =
      (compareBackends samples).map Row.runs :=
    map_eq_map_of_forall₂ (hrows.imp fun _ _ hr => hr.runs.symm)
  have hsummarizes : ∀ r ∈ compareBackends samples, r.Summarizes samples r.pair := by
    intro r hr
    obtain ⟨pair, -, hr⟩ := exists_of_mem_right hrows hr
    rwa [hr.pair_eq]
  refine ⟨hpairs ▸ ascending_pairs samples, fun pair => ?_, hruns ▸ sum_length_ofPair samples,
    hsummarizes, fun r hr r' hr' hcase => ?_, fun samples' => sameResults_compareBackends h⟩
  · rw [← List.mem_map, ← hpairs, mem_pairs]
  · rw [Bool.eq_iff_iff, (hsummarizes r hr).agrees, (hsummarizes r' hr').agrees]
    simp only [Row.pair, hcase]

/-- Two cases, one without dense samples and with files of two sizes; in the other one the dense
samples come apart, and one of their times is the fastest. -/
theorem compareBackends_partition_of_two_cases :
    let sample (caseName backend : String) (bytes : Nat) (extractTime : Float) : Sample :=
      ⟨caseName, backend, 1, [3, 5, 1], 40, bytes, extractTime, 9⟩
    let samples := [sample "b8" "triplets" 900 5, sample "b2" "dense" 512 8,
      sample "b2" "row lists" 512 3, sample "b2" "dense" 512 6, sample "b8" "triplets" 901 4]
    (∀ s ∈ samples, s.IsTimed) ∧
    ((compareBackends samples).map Row.pair).Pairwise Before ∧
    (compareBackends samples).map (fun r => (r.pair, r.extractVsDense.isSome, r.agrees)) =
      [(("b2", "dense"), true, true), (("b2", "row lists"), true, true),
        (("b8", "triplets"), false, false)] ∧
    ((compareBackends samples).map Row.runs).sum = 5 ∧
    (∀ r ∈ compareBackends samples, r.Summarizes samples r.pair) ∧
    List.Forall₂ Row.SameResults (compareBackends samples) (compareBackends samples.reverse) := by
  intro sample samples
  have htimed : ∀ s ∈ samples, s.IsTimed := by
    have htimes : ∀ s ∈ samples, s.extractTime.isNaN = false ∧ s.totalTime.isNaN = false := by
      decide +kernel
    exact fun s hs => ⟨(htimes s hs).1, (htimes s hs).2⟩
  have hrows : (compareBackends samples).map
      (fun r => (r.pair, r.extractVsDense.isSome, r.agrees)) =
        [(("b2", "dense"), true, true), (("b2", "row lists"), true, true),
          (("b8", "triplets"), false, false)] := by
    decide +kernel
  obtain ⟨hordered, -, hruns, hsummarizes, -, horders⟩ := compareBackends_partition samples htimed
  exact ⟨htimed, hordered, hrows, hruns, hsummarizes,
    horders samples.reverse (List.reverse_perm samples).symm⟩

end Semidefinite.Profile
