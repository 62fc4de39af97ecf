/-!
# Blank characters

The characters with the property White_Space, twenty-five in all, and the
words that they separate.
-/

namespace Semidefinite.Text

/-- The ranges of White_Space: tab to carriage return, space, next line, no-break
space, ogham space, the spaces of general punctuation, the two separators, and
the narrow no-break, mathematical and ideographic spaces. -/
def blankRanges : List (Nat × Nat) :=
  [(0x09, 0x0D), (0x20, 0x20), (0x85, 0x85), (0xA0, 0xA0), (0x1680, 0x1680), (0x2000, 0x200A),
    (0x2028, 0x2029), (0x202F, 0x202F), (0x205F, 0x205F), (0x3000, 0x3000)]

/-- Whether one of the ranges of code points has the character. -/
def inRanges (ranges : List (Nat × Nat)) (c : Char) : Bool :=
  ranges.any fun (first, last) => first ≤ c.toNat && c.toNat ≤ last

def isBlank (c : Char) : Bool :=
  inRanges blankRanges c

/-- The pieces between separators, empty ones included. -/
def pieces (separates : Char → Bool) : List Char → List (List Char)
  | [] => [[]]
  | c :: rest =>
    if separates c then [] :: pieces separates rest
    else
      match pieces separates rest with
      | [] => [[c]]
      | piece :: others => (c :: piece) :: others

/-- The non-empty pieces between separators. -/
def words (separates : Char → Bool) (text : String) : List String :=
  ((pieces separates text.toList).filter (!·.isEmpty)).map String.ofList

end Semidefinite.Text
