import Semidefinite.CommandLine.Run

/-!
# The program

Carries out what a command line asks for: prints, writes files and looks at the
clock. Refused arguments end with status 2, failed runs with status 1.
-/

namespace Semidefinite.CommandLine

def usage : String :=
  Text.unlines
    ["usage: semidefinite export [--blocks N] [--block-size N] [--variables N]",
      "           [--format sdpa-sparse|sdpa-dense|conic] [--split none|block-diag|full]",
      "           [--sense min|max] [--backend dense|sparse-lil|sparse-native]",
      "           [--comment TEXT] [--output FILE]",
      "       semidefinite profile [--cases N,...] [--block-size N] [--variables N]",
      "           [--backend NAME,...] [--split none|block-diag|full] [--repetitions N]",
      "           [--timing-only] [--format table|json]",
      "       both with [--log-level FILTER] [--log-format pretty|json]"]

def Refusal.message : Refusal → String
  | .noArguments | .help => usage
  | .version => "semidefinite 0.1.0\n"
  | .missingSubcommand => "error: a command is required\n"
  | .unknownSubcommand => "error: there is no such command\n"
  | .unknownArgument => "error: unexpected argument\n"
  | .invalidValue => "error: a value is missing or not among the choices\n"
  | .malformedNumber => "error: a value is not a number in range\n"
  | .repeated => "error: an argument is given twice\n"
  | .unwantedValue => "error: a flag takes no value\n"

/-- Prints a refusal; asking for help or the version is no error. -/
def refuse (r : Refusal) : IO UInt32 := do
  match r with
  | .help | .version =>
    IO.print r.message
    return 0
  | _ =>
    IO.eprint r.message
    return 2

def directoryOf (path : String) : String :=
  String.ofList ((path.toList.reverse.dropWhile (· ≠ '/')).drop 1).reverse

/-- Writes the file of an outcome, with the directories it needs, and prints. -/
def deliver (o : Outcome) : IO Unit := do
  if let some (path, text) := o.file then
    unless (directoryOf path).isEmpty do
      IO.FS.createDirAll (directoryOf path)
    IO.FS.writeFile path text
  IO.print o.stdout

/-- Evaluates a stage at this very point. -/
@[noinline] def evaluate {α : Type} (stage : Unit → α) : IO α :=
  pure (stage ())

def timed {α : Type} (stage : Unit → α) : IO (α × Float) := do
  let start ← IO.monoNanosNow
  let a ← evaluate stage
  let stop ← IO.monoNanosNow
  return (a, (stop - start).toFloat / 1000000)

def measured (cutting : Cutting) (r : ProfileRun) : IO (Attempt Profile.Sample) := do
  match syntheticProblem r.shape with
  | .error failure => return .error failure
  | .ok problem =>
    let (lmis, t₁) ← timed fun _ => Profile.canonicalize problem
    let (blocks, t₂) ← timed fun _ =>
      (lmis.mapError Failure.fault).bind (canonicalBlocks · cutting)
    let (numeric, t₃) ← timed fun _ =>
      (blocks.mapError (Failure.mapError LmiError.message)).bind fun blocks =>
        runLowering LmiError.message (Profile.extract r.backend.Store problem blocks)
    let (file, t₄) ← timed fun _ =>
      numeric.bind fun numeric => (Sdpa.renderSparse numeric none).mapError Failure.fault
    return do
      let lowered := Profile.summarize (← numeric) (← file)
      pure (.ofLowered r.shape r.backend r.repetition lowered t₃ (t₁ + t₂ + t₃ + t₄))

def fail (failure : Failure String) : IO UInt32 := do
  IO.eprintln (match failure with
    | .fault f => f.message
    | .error message => message)
  return 1

def finish (outcome : Attempt Outcome) : IO UInt32 := do
  match outcome with
  | .ok o =>
    deliver o
    return 0
  | .error failure => fail failure

def execute (command : Logged Command) : IO UInt32 := do
  match command.checked with
  | .error failure => fail failure
  | .ok (.export o) => finish (runExport o)
  | .ok (.profile o) =>
    match profileRuns o with
    | .error failure => fail failure
    | .ok runs =>
      let samples ← runs.mapM (measured o.cutting)
      finish do pure { stdout := report o.format (← samples.mapM id) }

end Semidefinite.CommandLine

def main (arguments : List String) : IO UInt32 :=
  match Semidefinite.CommandLine.Command.parse arguments with
  | .ok command => Semidefinite.CommandLine.execute command
  | .error refusal => Semidefinite.CommandLine.refuse refusal
