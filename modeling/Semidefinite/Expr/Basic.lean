import Semidefinite.Scalar
import Semidefinite.Symbol
import Semidefinite.Tally

/-!
# Expressions

An expression is a tree of sums, products and powers over constants and
symbols. The constructors of the type build any tree; `sumOf`, `productOf` and
`powerOf` build trees in a light normal form: nested sums and products are
flattened, the constants of each are folded into one in front, additive zeros
vanish, and a zero factor makes the product zero. Like terms stay apart.
-/

namespace Semidefinite

inductive Expr (K : Type) where
  | const (c : K)
  | symbol (s : Symbol)
  | sum (terms : List (Expr K))
  | product (factors : List (Expr K))
  | power (base : Expr K) (exponent : Nat)

namespace Expr

variable {K : Type}

/-! ## Structural equality -/

section Beq
variable [BEq K]

mutual

def beq : Expr K → Expr K → Bool
  | const a, const b => a == b
  | symbol s, symbol t => s == t
  | sum ts, sum us => beqList ts us
  | product ts, product us => beqList ts us
  | power a m, power b n => beq a b && m == n
  | _, _ => false

def beqList : List (Expr K) → List (Expr K) → Bool
  | [], [] => true
  | a :: as, b :: bs => beq a b && beqList as bs
  | _, _ => false

end

/-- Equal trees, with equal constants. -/
instance : BEq (Expr K) := ⟨beq⟩

end Beq

/-! ## Symbols -/

mutual

/-- The symbols of a tree, left to right, as often as they occur. -/
def occurrences : Expr K → List Symbol
  | const _ => []
  | symbol s => [s]
  | sum ts => occurrencesList ts
  | product ts => occurrencesList ts
  | power base _ => occurrences base

def occurrencesList : List (Expr K) → List Symbol
  | [] => []
  | e :: es => occurrences e ++ occurrencesList es

end

/-- The symbols that occur, ascending and distinct. -/
def freeSymbols (e : Expr K) : List Symbol :=
  ascending e.occurrences

/-! ## Constants -/

def constant? : Expr K → Option K
  | const c => some c
  | _ => none

variable [Scalar K]

def zero : Expr K := const 0

def isZero : Expr K → Bool
  | const c => c == 0
  | _ => false

/-! ## Normalising constructors -/

def withoutConstants (items : List (Expr K)) : List (Expr K) :=
  items.filter (·.constant?.isNone)

mutual

/-- The summands of a tree, through nested sums. -/
def summands : Expr K → List (Expr K)
  | sum ts => summandsList ts
  | e => [e]

def summandsList : List (Expr K) → List (Expr K)
  | [] => []
  | e :: es => summands e ++ summandsList es

end

mutual

/-- The factors of a tree, through nested products. -/
def factors : Expr K → List (Expr K)
  | product ts => factorsList ts
  | e => [e]

def factorsList : List (Expr K) → List (Expr K)
  | [] => []
  | e :: es => factors e ++ factorsList es

end

/-- The sum of the terms: flattened, with one non-zero constant in front. -/
def sumOf (terms : List (Expr K)) : Expr K :=
  let parts := summandsList terms
  let total := (parts.filterMap constant?).foldl (· + ·) 0
  let rest := withoutConstants parts
  match (if total != 0 then const total :: rest else rest) with
  | [] => zero
  | [only] => only
  | items => sum items

/-- The product of the factors: flattened, with one constant other than one in
front, and zero as soon as that constant is. -/
def productOf (items : List (Expr K)) : Expr K :=
  let parts := factorsList items
  let coefficient := (parts.filterMap constant?).foldl (· * ·) 1
  let rest := withoutConstants parts
  if coefficient == 0 then zero
  else
    match (if coefficient != 1 then const coefficient :: rest else rest) with
    | [] => const 1
    | [only] => only
    | items => product items

/-- The largest exponent to which a constant is raised on the spot. -/
def foldLimit : Nat := UInt32.size / 2 - 1

/-- The largest exponent of a merged power. -/
def exponentLimit : Nat := UInt32.size - 1

/-- `base ^ exponent`: a constant is raised, a power of a power is one power,
both within the limits. -/
def powerOf (base : Expr K) (exponent : Nat) : Expr K :=
  if exponent = 0 then const 1
  else if exponent = 1 then base
  else
    match base with
    | const c =>
      if exponent ≤ foldLimit then const (Scalar.power c exponent) else power base exponent
    | power inner n =>
      if n * exponent ≤ exponentLimit then power inner (n * exponent) else power base exponent
    | _ => power base exponent

def negate (e : Expr K) : Expr K :=
  productOf [const (-1), e]

instance : Add (Expr K) := ⟨fun a b => sumOf [a, b]⟩
instance : Mul (Expr K) := ⟨fun a b => productOf [a, b]⟩
instance : Neg (Expr K) := ⟨negate⟩
instance : Sub (Expr K) := ⟨fun a b => sumOf [a, b.negate]⟩

end Expr

end Semidefinite
