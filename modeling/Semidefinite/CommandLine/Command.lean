import Semidefinite.CommandLine.Parameter
import Semidefinite.Problem
import Semidefinite.Synthetic

/-!
# Commands

`export` writes a synthetic problem as solver input; `profile` runs the lowering
of synthetic problems on the backends and compares them. `Command.parse` reads
the arguments after the program's name.
-/

namespace Semidefinite.CommandLine

inductive ExportFormat where
  | sdpaSparse
  | sdpaDense
  | conic
  deriving DecidableEq, Repr

inductive ReportFormat where
  | table
  | json
  deriving DecidableEq, Repr

structure ExportOptions where
  shape : Synthetic.Shape := ⟨2, 3, 2⟩
  format : ExportFormat := .sdpaSparse
  cutting : Cutting := .finest
  sense : Sense := .minimize
  backend : Option Backend := none
  comment : Option String := none
  output : Option String := none
  deriving DecidableEq, Repr

structure ProfileOptions where
  cases : Option (List Nat) := none
  blockSize : Nat := 4
  vars : Nat := 8
  backends : Option (List Backend) := none
  cutting : Cutting := .finest
  repetitions : Nat := 3
  /-- Leave the memory of the process alone. -/
  timingOnly : Bool := false
  format : ReportFormat := .table
  deriving DecidableEq, Repr

inductive Command where
  | export (options : ExportOptions)
  | profile (options : ProfileOptions)
  deriving DecidableEq, Repr

/-- Something together with the filter of the log, which can be given ahead of a
command and after its name. -/
structure Logged (α : Type) where
  value : α
  logFilter : Option String := none
  deriving DecidableEq, Repr

def Logged.map {α β : Type} (f : α → β) (l : Logged α) : Logged β :=
  ⟨f l.value, l.logFilter⟩

/-! ## Words -/

def exportFormats : List (String × ExportFormat) :=
  [("sdpa-sparse", .sdpaSparse), ("sdpa-dense", .sdpaDense), ("conic", .conic)]

def reportFormats : List (String × ReportFormat) :=
  [("table", .table), ("json", .json)]

def cuttings : List (String × Cutting) :=
  [("none", .whole), ("block-diag", .carried), ("full", .finest)]

def senses : List (String × Sense) :=
  [("min", .minimize), ("max", .maximize)]

def backends : List (String × Backend) :=
  [("dense", .dense), ("sparse-lil", .rowLists), ("sparse-native", .triplets)]

def logFormats : List (String × Unit) :=
  [("pretty", ()), ("json", ())]

/-! ## Parameters -/

/-- A parameter whose value is read and then stored. -/
def valued {σ α : Type} (name : String) (read : String → Except Refusal α) (store : α → σ → σ) :
    Parameter σ :=
  ⟨name, .value fun text s => (read text).map (store · s)⟩

/-- A parameter of settings that have the filter of the log beside them. -/
def Parameter.logged {σ : Type} (p : Parameter σ) : Parameter (Logged σ) where
  name := p.name
  effect := match p.effect with
    | .flag set => .flag (Logged.map set)
    | .value set => .value fun text l => (set text l.value).map fun s => { l with value := s }
    | .values add => .values fun text l => (add text l.value).map fun s => { l with value := s }

/-- The parameters of the log, which every command has. The format changes nothing,
since nothing is logged. -/
def logParameters {σ : Type} : List (Parameter (Logged σ)) :=
  [valued "log-level" .ok fun text l => { l with logFilter := some text },
    valued "log-format" (readWord logFormats) fun _ l => l]

def exportParameters : List (Parameter ExportOptions) :=
  [valued "blocks" readSize fun n s => { s with shape.blocks := n },
    valued "block-size" readSize fun n s => { s with shape.blockSize := n },
    valued "variables" readSize fun n s => { s with shape.vars := n },
    valued "format" (readWord exportFormats) fun f s => { s with format := f },
    valued "split" (readWord cuttings) fun c s => { s with cutting := c },
    valued "sense" (readWord senses) fun d s => { s with sense := d },
    valued "backend" (readWord backends) fun b s => { s with backend := some b },
    valued "comment" .ok fun text s => { s with comment := some text },
    valued "output" readPath fun path s => { s with output := some path }]

def profileParameters : List (Parameter ProfileOptions) :=
  [⟨"cases", .values fun text s => (readList readSize text).map fun ns =>
      { s with cases := some (s.cases.getD [] ++ ns) }⟩,
    valued "block-size" readSize fun n s => { s with blockSize := n },
    valued "variables" readSize fun n s => { s with vars := n },
    ⟨"backend", .values fun text s => (readList (readWord backends) text).map fun bs =>
      { s with backends := some (s.backends.getD [] ++ bs) }⟩,
    valued "split" (readWord cuttings) fun c s => { s with cutting := c },
    valued "repetitions" readCount fun n s => { s with repetitions := n },
    ⟨"timing-only", .flag fun s => { s with timingOnly := true }⟩,
    valued "format" (readWord reportFormats) fun f s => { s with format := f }]

/-! ## Parsing -/

/-- The arguments of a command, which takes nothing but parameters. -/
def scanCommand {σ : Type} (parameters : List (Parameter (Logged σ))) :
    Scan (Logged σ) → List String → Except Refusal (Logged σ)
  | s, [] => do pure (← s.settlePending).settings
  | s, argument :: rest => do
    match ← s.step parameters [("help", .help)] [('h', .help)] argument with
    | .next s' => scanCommand parameters s' rest
    | .unclaimed => throw .unknownArgument

/-- What follows the word `help`: the name of at most one command. -/
def helpTopic : List String → Refusal
  | [] => .help
  | [topic] => if ["export", "profile", "help"].contains topic then .help else .unknownSubcommand
  | _ => .unknownSubcommand

/-- The settings of a command with the given parameters and defaults. -/
def readOptions {σ : Type} (parameters : List (Parameter σ)) (defaults : σ)
    (arguments : List String) : Except Refusal (Logged σ) :=
  scanCommand (parameters.map Parameter.logged ++ logParameters) { settings := ⟨defaults, none⟩ }
    arguments

/-- The arguments of the command called `name`, if there is one. -/
def subcommand? (name : String) (rest : List String) :
    Option (Except Refusal (Logged Command)) :=
  if name = "export" then some (Logged.map .export <$> readOptions exportParameters {} rest)
  else if name = "profile" then some (Logged.map .profile <$> readOptions profileParameters {} rest)
  else if name = "help" then some (.error (helpTopic rest))
  else none

def Pending.isWaiting {σ : Type} : Pending σ → Bool
  | .waiting _ => true
  | _ => false

/-- The arguments ahead of a command, then the command. What is pending ahead of
the command is settled after it, and a filter that the command has counts for
more than one ahead of it. -/
def scanTop : Scan (Logged Unit) → List String → Except Refusal (Logged Command)
  | s, [] => do
    let s ← s.settlePending
    throw (if s.seen.isEmpty then .noArguments else .missingSubcommand)
  | s, argument :: rest =>
    match subcommand? argument rest with
    | some command =>
      if s.closed then .error .unknownArgument
      else if s.pending.isWaiting then scanTopStep s argument rest
      else do
        let command ← command
        let s ← s.settlePending
        pure { command with logFilter := command.logFilter <|> s.settings.logFilter }
    | none => scanTopStep s argument rest
where
  scanTopStep (s : Scan (Logged Unit)) (argument : String) (rest : List String) :
      Except Refusal (Logged Command) := do
    match ← s.step logParameters [("help", .help), ("version", .version)]
        [('h', .help), ('V', .version)] argument with
    | .next s' => scanTop s' rest
    | .unclaimed => throw .unknownSubcommand

def Command.parse (arguments : List String) : Except Refusal (Logged Command) :=
  scanTop { settings := ⟨(), none⟩ } arguments

end Semidefinite.CommandLine
