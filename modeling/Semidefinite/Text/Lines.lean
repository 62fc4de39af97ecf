/-!
# Lines and columns

A text of lines ends every line with a newline. Columns of a table are padded
with blanks to a width counted in characters.
-/

namespace Semidefinite.Text

/-- The lines, each followed by a newline. -/
def unlines (lines : List String) : String :=
  String.join (lines.map (· ++ "\n"))

def blanks (n : Nat) : String :=
  String.ofList (List.replicate n ' ')

def alignLeft (width : Nat) (text : String) : String :=
  text ++ blanks (width - text.length)

def alignRight (width : Nat) (text : String) : String :=
  blanks (width - text.length) ++ text

end Semidefinite.Text
