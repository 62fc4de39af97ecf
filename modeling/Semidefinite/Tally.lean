/-!
# Tallies

A tally keeps one running total per key, in ascending order of the keys. It is
what merging like terms produces at every level: exponents per symbol,
coefficients per monomial, stored values per matrix cell.
-/

namespace Semidefinite

/-- Totals by key. `add` keeps the keys ascending and distinct. -/
structure Tally (κ α : Type) where
  entries : List (κ × α)
  deriving DecidableEq, Repr

namespace Tally

variable {κ α : Type}

def empty : Tally κ α := ⟨[]⟩

def keys (t : Tally κ α) : List κ :=
  t.entries.map Prod.fst

section Add
variable [Ord κ] [Zero α] [Add α]

/-- Adds `v` onto the total of `k`; a total starts from zero. -/
def addEntry (k : κ) (v : α) : List (κ × α) → List (κ × α)
  | [] => [(k, 0 + v)]
  | (k', total) :: rest =>
    match compare k k' with
    | .lt => (k, 0 + v) :: (k', total) :: rest
    | .eq => (k', total + v) :: rest
    | .gt => (k', total) :: addEntry k v rest

def add (t : Tally κ α) (k : κ) (v : α) : Tally κ α :=
  ⟨addEntry k v t.entries⟩

def addAll (t : Tally κ α) (contributions : List (κ × α)) : Tally κ α :=
  contributions.foldl (fun acc (k, v) => acc.add k v) t

def ofList (contributions : List (κ × α)) : Tally κ α :=
  empty.addAll contributions

/-- The totals of both, those of the second added onto those of the first. -/
def merge (s t : Tally κ α) : Tally κ α :=
  s.addAll t.entries

/-- The total of `k`, zero if it has none. -/
def total [BEq κ] (t : Tally κ α) (k : κ) : α :=
  (t.entries.lookup k).getD 0

end Add

def dropZeros [Zero α] [BEq α] (t : Tally κ α) : Tally κ α :=
  ⟨t.entries.filter fun (_, v) => v != 0⟩

/-- Tallies are ordered as the lists of their entries, a key before its total. -/
instance [Ord κ] [Ord α] : Ord (Tally κ α) where
  compare s t :=
    List.compareLex (compareLex (compareOn Prod.fst) (compareOn Prod.snd)) s.entries t.entries

end Tally

/-- Inserts `a` into an ascending list, unless it is there. -/
def insertAscending {α : Type} [Ord α] (a : α) : List α → List α
  | [] => [a]
  | b :: rest =>
    match compare a b with
    | .lt => a :: b :: rest
    | .eq => b :: rest
    | .gt => b :: insertAscending a rest

/-- The distinct members of a list in ascending order. -/
def ascending {α : Type} [Ord α] (items : List α) : List α :=
  items.foldl (fun acc a => insertAscending a acc) []

end Semidefinite
