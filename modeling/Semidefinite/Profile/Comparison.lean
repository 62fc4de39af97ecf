import Semidefinite.Decimal.Fixed
import Semidefinite.Profile.Sample
import Semidefinite.Text.Lines

/-!
# Comparing backends

Samples are grouped by case and then by backend, both in ascending order. A row
has the best times of its group, the figures of the group's first sample, the
ratio to the dense backend of the same case, and whether all samples of the case
have files of one size.
-/

namespace Semidefinite.Profile

/-- What one backend achieved on one case. -/
structure Row where
  caseName : String
  backend : String
  runs : Nat
  blocks : Nat
  largestBlock : Nat
  nonzeros : Nat
  bytes : Nat
  bestExtract : Float
  bestTotal : Float
  extractVsDense : Option Float
  agrees : Bool

/-- The smaller number, and the second one of two equals. NaN gives way to the other
one. -/
def lesser (a b : Float) : Float :=
  if a < b || b.isNaN then a else b

/-- The least of the times, infinity if there is none. -/
def fastest (time : Sample → Float) (samples : List Sample) : Float :=
  (samples.map time).foldl lesser (1.0 / 0.0)

def sameSize (samples : List Sample) : Bool :=
  match samples with
  | [] => true
  | first :: rest => rest.all (·.bytes == first.bytes)

/-- The best extraction time of the dense samples, if there is a positive one. -/
def denseExtract? (samples : List Sample) : Option Float :=
  match samples.filter (·.backend == Backend.dense.text) with
  | [] => none
  | dense =>
    let best := fastest Sample.extractTime dense
    if best > 0 then some best else none

def Row.ofSamples (samples : List Sample) (backend : String) : Option Row :=
  let runs := samples.filter (·.backend == backend)
  runs.head?.map fun first =>
    let best := fastest Sample.extractTime runs
    { caseName := first.caseName
      backend := backend
      runs := runs.length
      blocks := first.blockSizes.length
      largestBlock := first.blockSizes.foldl max 0
      nonzeros := first.nonzeros
      bytes := first.bytes
      bestExtract := best
      bestTotal := fastest Sample.totalTime runs
      extractVsDense := (denseExtract? samples).map (best / ·)
      agrees := sameSize samples }

def compareBackends (samples : List Sample) : List Row :=
  (ascending (samples.map Sample.caseName)).flatMap fun caseName =>
    let ofCase := samples.filter (·.caseName == caseName)
    (ascending (ofCase.map Sample.backend)).filterMap (Row.ofSamples ofCase)

/-! ## The table -/

/-- The width of a column and whether its cells start on the left. -/
def columns : List (Nat × Bool) :=
  [(14, true), (14, true), (4, false), (7, false), (6, false), (8, false), (11, false), (11, false),
    (10, false), (9, false)]

/-- The cells in their columns, a blank between two. -/
def tableLine (cells : List String) : String :=
  " ".intercalate ((columns.zip cells).map fun ((width, onLeft), cell) =>
    if onLeft then Text.alignLeft width cell else Text.alignRight width cell)

def tableHeader : String :=
  tableLine ["case", "backend", "runs", "blocks", "max_n", "nnz", "sdpa_bytes", "extract_ms",
    "total_ms", "vs_dense"]

def Row.line (r : Row) : String :=
  let ratio := (r.extractVsDense.map fun x => Decimal.fixed 2 x ++ "x").getD "-"
  tableLine [r.caseName, r.backend, Nat.repr r.runs, Nat.repr r.blocks, Nat.repr r.largestBlock,
      Nat.repr r.nonzeros, Nat.repr r.bytes, Decimal.fixed 3 r.bestExtract,
      Decimal.fixed 3 r.bestTotal, ratio] ++
    (if r.agrees then "" else " (output differs)")

def table (rows : List Row) : String :=
  Text.unlines (tableHeader :: rows.map Row.line)

end Semidefinite.Profile
