import Semidefinite.Decimal.Layout

/-!
# JSON documents

Values and their indented text: two blanks per level, one member per line, empty
lists and objects on one line. A number is kept by its text.
-/

namespace Semidefinite.Text

inductive Json where
  | null
  | bool (b : Bool)
  | number (text : String)
  | string (s : String)
  | list (items : List Json)
  | object (members : List (String × Json))

namespace Json

/-- In JSON a number from `1e-5` up to `1e16` is written positionally, and an
integral value ends in `.0`. -/
def numberLayout : Decimal.Layout where
  positional lead := -5 ≤ lead && lead < 16
  pointZero := true

def nat (n : Nat) : Json :=
  number (Nat.repr n)

/-- A double; JSON has no word for NaN and the infinities. -/
def float (x : Float) : Json :=
  if x.isFinite then number (numberLayout.render x) else null

def hexDigit (n : Nat) : Char :=
  if n < 10 then Char.ofNat (48 + n) else Char.ofNat (87 + n)

/-- A character inside a string. -/
def escape (c : Char) : String :=
  if c = '"' then "\\\""
  else if c = '\\' then "\\\\"
  else if c = '\n' then "\\n"
  else if c = '\r' then "\\r"
  else if c = '\t' then "\\t"
  else if c.toNat = 8 then "\\b"
  else if c.toNat = 12 then "\\f"
  else if c.toNat < 32 then
    "\\u00" ++ String.ofList [hexDigit (c.toNat / 16), hexDigit (c.toNat % 16)]
  else String.singleton c

def quote (s : String) : String :=
  "\"" ++ String.join (s.toList.map escape) ++ "\""

def indent (depth : Nat) : String :=
  "\n" ++ String.ofList (List.replicate (2 * depth) ' ')

/-- Members between brackets, each on a line of its own. -/
def bracketed (opening closing : String) (depth : Nat) (members : List String) : String :=
  if members.isEmpty then opening ++ closing
  else
    opening ++ ",".intercalate (members.map (indent (depth + 1) ++ ·)) ++ indent depth ++ closing

mutual

/-- The text of a value whose line is indented by `depth` levels. -/
def render (depth : Nat) : Json → String
  | null => "null"
  | bool b => if b then "true" else "false"
  | number text => text
  | string s => quote s
  | list items => bracketed "[" "]" depth (renderItems (depth + 1) items)
  | object members => bracketed "\x7b" "\x7d" depth (renderMembers (depth + 1) members)

def renderItems (depth : Nat) : List Json → List String
  | [] => []
  | item :: rest => render depth item :: renderItems depth rest

def renderMembers (depth : Nat) : List (String × Json) → List String
  | [] => []
  | (key, value) :: rest => (quote key ++ ": " ++ render depth value) :: renderMembers depth rest

end

end Json

end Semidefinite.Text
