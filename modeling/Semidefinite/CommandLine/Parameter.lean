import Semidefinite.Text.Blank

/-!
# Parameters of a command

A command has long parameters: flags, parameters with one value, and parameters
with a list of values. `Scan` reads arguments from left to right. A parameter
waits for its value until the next argument, and the value is judged only when
the following parameter, or the end, settles it. An argument that nothing
accounts for is refused at once.
-/

namespace Semidefinite.CommandLine

/-- Why arguments are refused, or what they ask for instead of a run. -/
inductive Refusal where
  | noArguments
  | help
  | version
  | missingSubcommand
  | unknownSubcommand
  | unknownArgument
  /-- A value that is missing or not one of the choices. -/
  | invalidValue
  /-- A number that cannot be read. -/
  | malformedNumber
  /-- A parameter that was given before. -/
  | repeated
  /-- A flag with a value. -/
  | unwantedValue
  deriving DecidableEq, Repr

/-! ## Reading values -/

/-- The value of a non-empty list of decimal digits. -/
def digitsValue? (digits : List Char) : Option Nat :=
  if digits.isEmpty || !digits.all Char.isDigit then none
  else some (digits.foldl (fun n c => 10 * n + (c.toNat - 48)) 0)

/-- An unsigned 64-bit number, perhaps with a plus sign. -/
def readSize (text : String) : Except Refusal Nat :=
  let digits := match text.toList with
    | '+' :: rest => rest
    | other => other
  match digitsValue? digits with
  | some n => if n < UInt64.size then .ok n else .error .malformedNumber
  | none => .error .malformedNumber

/-- An unsigned 32-bit number, perhaps with a sign. -/
def readCount (text : String) : Except Refusal Nat :=
  let value? : Option Int := match text.toList with
    | '-' :: rest => (digitsValue? rest).map fun n => -(n : Int)
    | '+' :: rest => (digitsValue? rest).map Int.ofNat
    | other => (digitsValue? other).map Int.ofNat
  match value? with
  | some n => if 0 ≤ n ∧ n < UInt32.size then .ok n.toNat else .error .malformedNumber
  | none => .error .malformedNumber

def readWord {α : Type} (choices : List (String × α)) (text : String) : Except Refusal α :=
  match choices.lookup text with
  | some a => .ok a
  | none => .error .invalidValue

/-- The name of a file, which cannot be empty. -/
def readPath (text : String) : Except Refusal String :=
  if text.isEmpty then .error .invalidValue else .ok text

def readList {α : Type} (read : String → Except Refusal α) (text : String) :
    Except Refusal (List α) :=
  (Text.pieces (· == ',') text.toList).mapM fun piece => read (String.ofList piece)

/-! ## Parameters -/

/-- What a parameter does to the settings `σ`. -/
inductive Effect (σ : Type) where
  | flag (set : σ → σ)
  | value (set : String → σ → Except Refusal σ)
  /-- Like `value`, but may be given again. -/
  | values (add : String → σ → Except Refusal σ)

/-- A parameter, written `--name`. -/
structure Parameter (σ : Type) where
  name : String
  effect : Effect σ

/-- A parameter that was met but not yet settled. -/
inductive Pending (σ : Type) where
  | nothing
  /-- It has no value so far. -/
  | waiting (p : Parameter σ)
  | holding (p : Parameter σ) (value : String)

structure Scan (σ : Type) where
  settings : σ
  /-- The names of the settled parameters. -/
  seen : List String := []
  pending : Pending σ := .nothing
  /-- Whether `--` was met, after which nothing is a parameter. -/
  closed : Bool := false

/-- What one argument means to a scan. -/
inductive Step (σ : Type) where
  | next (scan : Scan σ)
  /-- It is no parameter, nor the value of one. -/
  | unclaimed

namespace Scan

variable {σ : Type}

def settle (s : Scan σ) (p : Parameter σ) (value : String) : Except Refusal (Scan σ) := do
  let again := s.seen.contains p.name
  let settings ← match p.effect with
    | .flag set => if again then throw .repeated else pure (set s.settings)
    | .value set => if again then throw .repeated else set value s.settings
    | .values add => add value s.settings
  pure { s with settings, seen := p.name :: s.seen, pending := .nothing }

def settlePending (s : Scan σ) : Except Refusal (Scan σ) :=
  match s.pending with
  | .nothing => .ok s
  | .waiting _ => .error .invalidValue
  | .holding p value => s.settle p value

/-- Settles the pending parameter and gives the refusal that was asked for. -/
def answer (s : Scan σ) (refusal : Refusal) : Except Refusal (Step σ) := do
  let _ ← s.settlePending
  throw refusal

/-- Splits `name=value` at the first equals sign. -/
def splitValue (text : List Char) : String × Option String :=
  let (name, rest) := text.span (· ≠ '=')
  (String.ofList name, match rest with
    | [] => none
    | _ :: value => some (String.ofList value))

/-- An argument that starts with two dashes. -/
def long (parameters : List (Parameter σ)) (answers : List (String × Refusal)) (s : Scan σ)
    (text : List Char) : Except Refusal (Step σ) :=
  let (name, attached) := splitValue text
  match answers.lookup name, parameters.find? (·.name == name) with
  | some refusal, _ => if attached.isSome then .error .unwantedValue else s.answer refusal
  | none, none => .error .unknownArgument
  | none, some p =>
    match p.effect, attached with
    | .flag _, some _ => .error .unwantedValue
    | .flag _, none => do pure (.next (← (← s.settlePending).settle p ""))
    | _, some value => do pure (.next (← (← s.settlePending).settle p value))
    | _, none => do pure (.next { (← s.settlePending) with pending := .waiting p })

/-- One argument. `answers` are the parameters that ask for something instead of a
run; their first letters stand for them after a single dash. -/
def step (parameters : List (Parameter σ)) (answers : List (String × Refusal))
    (letters : List (Char × Refusal)) (s : Scan σ) (argument : String) : Except Refusal (Step σ) :=
  if s.closed then .ok .unclaimed
  else
    match argument.toList, s.pending with
    | ['-', '-'], _ => .ok (.next { s with closed := true })
    | '-' :: '-' :: text, _ => s.long parameters answers text
    | '-' :: letter :: _, _ =>
      match letters.lookup letter with
      | some refusal => s.answer refusal
      | none => .error .unknownArgument
    | _, .waiting p => .ok (.next { s with pending := .holding p argument })
    | _, _ => .ok .unclaimed

end Scan

end Semidefinite.CommandLine
