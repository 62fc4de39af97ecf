import Semidefinite.CommandLine.Parameter
import Semidefinite.Text.Cut
import Semidefinite.Text.Pattern.Check

/-!
# Log filters

A log filter is a list of directives between commas. A directive is a level, or
`target[span{field=value}]=level` with some of its parts left out. A level
that is missing is the most talkative one. Nothing here is logged, so a filter
is checked and not kept.
-/

namespace Semidefinite.CommandLine

inductive FilterError where
  /-- A directive of another form. -/
  | directive
  /-- A level of another name. -/
  | level
  /-- A field whose value is no pattern. -/
  | pattern (e : Text.PatternError)
  deriving DecidableEq, Repr

namespace FilterError

def message : FilterError → String
  | directive => "invalid filter directive"
  | level =>
    "error parsing level filter: expected one of \"off\", \"error\", \"warn\", \"info\", " ++
      "\"debug\", \"trace\", or a number 0-5"
  | pattern e => "invalid field filter: " ++ e.message

end FilterError

namespace LogFilter

abbrev Checked (α : Type) := Except (Failure FilterError) α

def refuse {α : Type} (e : FilterError) : Checked α :=
  .error (.error e)

/-! ## The parts of a directive -/

def levels : List String :=
  ["off", "error", "warn", "info", "debug", "trace"]

/-- The text in lower case; ASCII letters only. -/
def lower (text : List Char) : String :=
  String.ofList (text.map Char.toLower)

/-- The name of a level in letters of either case, or its number. -/
def isLevel (text : List Char) : Bool :=
  levels.contains (lower text) ||
    (readSize (String.ofList text)).toOption.any (· < levels.length)

/-- Nothing, which is the most talkative level, or a level. -/
def checkLevel (text : List Char) : Checked Unit :=
  if text.isEmpty || isLevel text then .ok () else refuse .level

/-- Digits, perhaps with a point among them and an exponent after them. -/
def isDecimal (text : List Char) : Bool :=
  let (mantissa, exponent) := text.span fun c => c ≠ 'e' ∧ c ≠ 'E'
  let (whole, fraction) := mantissa.span (· ≠ '.')
  (digitsValue? (whole ++ fraction.drop 1)).isSome &&
    match exponent.drop 1 with
    | [] => exponent.isEmpty
    | '+' :: digits | '-' :: digits => (digitsValue? digits).isSome
    | digits => (digitsValue? digits).isSome

/-- A decimal, an infinity or no number, perhaps with a sign. -/
def isNumber (text : List Char) : Bool :=
  let unsigned := match text with
    | '+' :: rest | '-' :: rest => rest
    | other => other
  ["inf", "infinity", "nan"].contains (lower unsigned) || isDecimal unsigned

/-- A number or a pattern. -/
def checkValue (text : List Char) : Checked Unit :=
  if isNumber text then .ok ()
  else (Text.Pattern.check text).mapError (.error ∘ .pattern)

/-- A name, perhaps with a value. What follows a second equals sign does not count. -/
def checkField (text : List Char) : Checked Unit :=
  if text.isEmpty then refuse .directive
  else
    match Text.pieces (· == '=') text with
    | _ :: value :: _ => checkValue value
    | _ => .ok ()

/-- Whether a target may start with the character: a letter, a numeral, `-`, `:` or
`_`. -/
def startsTarget (c : Char) : Bool :=
  Text.isLetter c || Text.isNumeral c || ['-', ':', '_'].contains c

/-! ## Reading a directive -/

/-- Where the reading of a directive stands. An open part has the offset that it
starts at. -/
inductive Place where
  | start
  /-- In a target, or in a level that stands alone. -/
  | target
  | span (first : Nat)
  | field (first : Nat)
  /-- After the fields of a span. -/
  | fields
  /-- After a span. -/
  | closed
  | level (first : Nat)
  deriving DecidableEq, Repr

def part (directive : List Char) (first last : Nat) : Checked (List Char) :=
  (Text.textBetween first last directive).mapError .fault

/-- The place after one more character. A part is cut out of the directive where it
ends, so an end inside a character of the directive is a fault. -/
def Place.step (directive : List Char) (offset : Nat) (c : Char) : Place → Checked Place
  | start =>
    if c = '[' then .ok (span (offset + 1))
    else if startsTarget c then .ok target
    else refuse .directive
  | target =>
    if c = '=' then do
      let _ ← part directive 0 offset
      pure (level (offset + 1))
    else if c = '[' then do
      let _ ← part directive 0 offset
      pure (span (offset + 1))
    else .ok target
  | span first =>
    if c = ']' then do
      let _ ← part directive first offset
      pure closed
    else if c = '\x7b' then do
      let _ ← part directive first offset
      pure (field (offset + 1))
    else .ok (span first)
  | field first =>
    if c = '\x7d' then do
      checkField (← part directive first offset)
      pure fields
    else .ok (field first)
  | fields => if c = ']' then .ok closed else refuse .directive
  | closed => if c = '=' then .ok (level (offset + 1)) else refuse .directive
  | level first => .ok (level first)

/-- Checks the place where a directive ends. A level goes on to its very end. -/
def Place.finish (directive : List Char) : Place → Checked Unit
  | target | closed => .ok ()
  | level first => do checkLevel (← (Text.textFrom first directive).mapError .fault)
  | start | span _ | field _ | fields => refuse .directive

def trimmed (text : List Char) : List Char :=
  ((text.dropWhile Text.isBlank).reverse.dropWhile Text.isBlank).reverse

/-- Checks one directive. Its form is that of the text without the blanks around
it, while the texts of its parts are taken at the same offsets of the whole:
blanks count for fields and levels. -/
def checkDirective (directive : List Char) : Checked Unit := do
  let place ← (Text.withOffsets 0 (trimmed directive)).foldlM
    (fun (place : Place) (offset, c) => place.step directive offset c) .start
  place.finish directive

/-- Checks the directives between commas, first to last. Empty ones do not count. -/
def check (filter : String) : Checked Unit :=
  ((Text.pieces (· == ',') filter.toList).filter (!·.isEmpty)).forM checkDirective

end LogFilter

end Semidefinite.CommandLine
