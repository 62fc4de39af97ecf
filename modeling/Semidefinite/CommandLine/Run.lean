import Semidefinite.CommandLine.Command
import Semidefinite.CommandLine.Destination
import Semidefinite.CommandLine.LogFilter
import Semidefinite.Export.Conic
import Semidefinite.Export.Sdpa
import Semidefinite.Profile.Comparison
import Semidefinite.Text.Json

/-!
# Running commands

What a command prints, and the file it writes. Nothing here touches the outside
world: times are handed in with the samples.
-/

namespace Semidefinite.CommandLine

structure Outcome where
  stdout : String
  /-- The name and the content of a file to write. -/
  file : Option (String × String) := none
  deriving DecidableEq, Repr

abbrev Attempt (α : Type) := Except (Failure String) α

def reject {α : Type} (message : String) : Attempt α :=
  .error (.error message)

/-- The result of a lowering that starts with a fresh supply of nonces. -/
def runLowering {ε α : Type} (message : ε → String) (x : Lowering ε α) : Attempt α :=
  (x.run NonceSupply.first).1.mapError (Failure.mapError message)

def syntheticProblem (shape : Synthetic.Shape) : Attempt (Problem Float) :=
  (Synthetic.problem shape).mapError (.error ∘ LmiError.message)

/-! ## Export -/

def gridJson (g : Grid Float) : Text.Json :=
  .list (g.toRows.map fun row => .list (row.map .float))

def conicJson (p : ConicProblem Float) : Text.Json :=
  .object [("c", .list (p.objective.map .float)), ("gs", .list (p.gs.map gridJson)),
    ("hs", .list (p.hs.map gridJson))]

def exportConfig (o : ExportOptions) : ExportConfig where
  sense := o.sense
  cutting := o.cutting
  comment := o.comment
  backend := o.backend

def exportText (o : ExportOptions) : Attempt String := do
  let problem ← syntheticProblem o.shape
  let config := exportConfig o
  match o.format with
  | .sdpaSparse => runLowering ExportError.message (Sdpa.exportSparse problem config)
  | .sdpaDense => runLowering ExportError.message (Sdpa.exportDense problem config)
  | .conic =>
    let conic ← runLowering ExportError.message (ConicProblem.ofProblem problem config)
    pure ((conicJson conic).render 0 ++ "\n")

/-- The text goes to the named file, or else to standard output. -/
def runExport (o : ExportOptions) : Attempt Outcome := do
  let text ← exportText o
  match o.output with
  | some path =>
    (checkDestination path).mapError (.error ∘ PathError.message)
    pure { stdout := "wrote: " ++ path ++ "\n", file := some (path, text) }
  | none => pure { stdout := text }

/-! ## Profile -/

structure ProfileRun where
  shape : Synthetic.Shape
  backend : Backend
  repetition : Nat

/-- The numbers of blocks that are profiled by default. -/
def defaultCases : List Nat := [4, 16, 64]

/-- The runs that a profile consists of: cases, then backends, then repetitions. -/
def profileRuns (o : ProfileOptions) : Attempt (List ProfileRun) :=
  if o.repetitions = 0 then reject "repetitions must be greater than zero"
  else if o.blockSize = 0 then reject "block-size must be greater than zero"
  else
    .ok <| (o.cases.getD defaultCases).flatMap fun blocks =>
      (o.backends.getD (CommandLine.backends.map Prod.snd)).flatMap fun backend =>
        (List.range o.repetitions).map fun k => ⟨⟨blocks, o.blockSize, o.vars⟩, backend, k + 1⟩

/-- A run without a clock. -/
def ProfileRun.sample (cutting : Cutting) (r : ProfileRun) : Attempt Profile.Sample := do
  let problem ← syntheticProblem r.shape
  let lowered ← runLowering LmiError.message (Profile.lower r.backend.Store problem cutting)
  pure (.ofLowered r.shape r.backend r.repetition lowered 0 0)

def sampleJson (s : Profile.Sample) : Text.Json :=
  .object [("case_name", .string s.caseName), ("backend", .string s.backend),
    ("repetition", .nat s.repetition), ("block_struct", .list (s.blockSizes.map .nat)),
    ("nnz", .nat s.nonzeros), ("sdpa_bytes", .nat s.bytes), ("extract_ms", .float s.extractTime),
    ("total_ms", .float s.totalTime), ("extract_rss_delta_bytes", .null)]

def rowJson (r : Profile.Row) : Text.Json :=
  .object [("case_name", .string r.caseName), ("backend", .string r.backend), ("runs", .nat r.runs),
    ("sdp_blocks", .nat r.blocks), ("largest_block", .nat r.largestBlock), ("nnz", .nat r.nonzeros),
    ("sdpa_bytes", .nat r.bytes), ("best_extract_ms", .float r.bestExtract),
    ("best_total_ms", .float r.bestTotal),
    ("extract_vs_dense", (r.extractVsDense.map .float).getD .null),
    ("output_agrees", .bool r.agrees)]

def report (format : ReportFormat) (samples : List Profile.Sample) : String :=
  let rows := Profile.compareBackends samples
  match format with
  | .table => Profile.table rows
  | .json =>
    (Text.Json.object [("samples", .list (samples.map sampleJson)),
      ("comparison", .list (rows.map rowJson))]).render 0 ++ "\n"

def runProfile (o : ProfileOptions) : Attempt Outcome := do
  let samples ← (← profileRuns o).mapM (ProfileRun.sample o.cutting)
  pure { stdout := report o.format samples }

/-! ## Command lines -/

/-- The command, if the filter of the log is in order. The word `off` in letters of
either case is no filter. -/
def Logged.checked {α : Type} (l : Logged α) : Attempt α := do
  if let some filter := l.logFilter then
    unless LogFilter.lower filter.toList = "off" do
      (LogFilter.check filter).mapError
        (Failure.mapError fun e => "Invalid log filter: " ++ e.message)
  pure l.value

inductive Stop where
  | refused (refusal : Refusal)
  | failed (failure : Failure String)
  deriving DecidableEq, Repr

/-- The outcome of a command line, with all times zero. -/
def run (arguments : List String) : Except Stop Outcome := do
  let logged ← (Command.parse arguments).mapError .refused
  match ← logged.checked.mapError .failed with
  | .export o => (runExport o).mapError .failed
  | .profile o => (runProfile o).mapError .failed

end Semidefinite.CommandLine
