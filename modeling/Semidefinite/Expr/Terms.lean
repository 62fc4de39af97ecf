import Semidefinite.Expr.Text

/-!
# Terms and their coefficients

Each term of a sum is a number times a non-numeric part, which is filed under
a `TermKey`. `Expr.terms` merges the coefficients of terms with one key.
Nothing is expanded: a product that holds a sum has an `unexpanded` key, its
text.
-/

namespace Semidefinite

-- sums of natural numbers start from the core library's zero, whatever else is imported
attribute [local instance (high)] Zero.ofOfNat0

/-- The exponents of the symbols in a product of powers. -/
abbrev Monomial := Tally Symbol Nat

/-- The non-numeric part of a term. -/
inductive TermKey where
  /-- No symbol at all. -/
  | one
  /-- One symbol to the first power. -/
  | symbol (s : Symbol)
  /-- Symbol powers of total degree above one. -/
  | monomial (powers : Monomial)
  /-- The text of any other product. -/
  | unexpanded (text : String)
  deriving DecidableEq, Repr

namespace TermKey

/-- The constant key comes first, then symbols, monomials and other products. -/
instance : Ord TermKey where
  compare
    | one, one => .eq
    | one, _ => .lt
    | _, one => .gt
    | symbol s, symbol t => compare s t
    | symbol _, _ => .lt
    | _, symbol _ => .gt
    | monomial p, monomial q => compare p q
    | monomial _, _ => .lt
    | _, monomial _ => .gt
    | unexpanded a, unexpanded b => compare a b

/-- The key of a product of symbol powers. Zero powers do not count. -/
def ofPowers (powers : Monomial) : TermKey :=
  match powers.dropZeros.entries with
  | [] => one
  | [(s, 1)] => symbol s
  | entries => monomial ⟨entries⟩

def powerText : Symbol × Nat → String
  | (s, n) => if n = 1 then s.text else s.text ++ "**" ++ Nat.repr n

def text : TermKey → String
  | one => "1"
  | symbol s => s.text
  | monomial powers => "*".intercalate (powers.entries.map powerText)
  | unexpanded text => text

end TermKey

namespace Expr

variable {K : Type}

/-- A symbol or a power of a symbol, with its exponent. -/
def symbolPower? : Expr K → Option (Symbol × Nat)
  | symbol s => some (s, 1)
  | power (symbol s) n => some (s, n)
  | _ => none

variable [Scalar K]

/-- The key of a product: its monomial if all factors are symbol powers,
otherwise its text. -/
def productKey (items : List (Expr K)) : TermKey :=
  match items.mapM symbolPower? with
  | some powers => TermKey.ofPowers (Tally.ofList powers)
  | none => .unexpanded (productOf items).text

def splitTerm : Expr K → TermKey × K
  | const c => (.one, c)
  | symbol s => (.symbol s, 1)
  | product items =>
    (productKey (withoutConstants items), (items.filterMap constant?).foldl (· * ·) 1)
  | e => (productKey [e], 1)

/-- The terms of the outermost sum. -/
def topTerms : Expr K → List (Expr K)
  | sum ts => ts
  | e => [e]

/-- The merged coefficient of every key, zero ones dropped. -/
def terms (e : Expr K) : Tally TermKey K :=
  (Tally.ofList (e.topTerms.map splitTerm)).dropZeros

end Expr

end Semidefinite
