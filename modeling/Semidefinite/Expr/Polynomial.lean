import Semidefinite.Expr.Terms

/-!
# Expansion

A polynomial keeps one coefficient per monomial. `Expr.toPolynomial` multiplies
an expression out, and `Expr.expand` writes the result as a sum of monomials in
ascending order, with like terms merged and zero terms dropped.
-/

namespace Semidefinite

-- sums of natural numbers start from the core library's zero, whatever else is imported
attribute [local instance (high)] Zero.ofOfNat0

/-- Coefficients by monomial. -/
abbrev Polynomial (K : Type) := Tally Monomial K

namespace Monomial

/-- The product of two monomials adds their exponents. -/
def mul (m n : Monomial) : Monomial :=
  m.merge n

/-- The monomial as an expression, its symbols ascending. -/
def factors {K : Type} [Scalar K] (m : Monomial) : List (Expr K) :=
  m.entries.map fun (s, n) => Expr.powerOf (.symbol s) n

end Monomial

namespace Polynomial

variable {K : Type} [Scalar K]

def const (c : K) : Polynomial K :=
  Tally.ofList [(Tally.empty, c)]

def symbol (s : Symbol) : Polynomial K :=
  Tally.ofList [(⟨[(s, 1)]⟩, 1)]

def add (p q : Polynomial K) : Polynomial K :=
  p.merge q

/-- Every term of `p` times every term of `q`. -/
def mul (p q : Polynomial K) : Polynomial K :=
  Tally.ofList <| p.entries.flatMap fun (m, a) =>
    q.entries.map fun (n, b) => (Monomial.mul m n, a * b)

/-- `p` multiplied onto one, `n` times. -/
def pow (p : Polynomial K) (n : Nat) : Polynomial K :=
  n.repeat (mul · p) (const 1)

def toExpr (p : Polynomial K) : Expr K :=
  Expr.sumOf (p.dropZeros.entries.map fun (m, c) => Expr.productOf (.const c :: Monomial.factors m))

end Polynomial

namespace Expr

variable {K : Type} [Scalar K]

mutual

def toPolynomial : Expr K → Polynomial K
  | const c => Polynomial.const c
  | symbol s => Polynomial.symbol s
  | sum ts => addPolynomials Tally.empty ts
  | product ts => mulPolynomials (Polynomial.const 1) ts
  | power base n => (toPolynomial base).pow n

def addPolynomials (acc : Polynomial K) : List (Expr K) → Polynomial K
  | [] => acc
  | e :: es => addPolynomials (Polynomial.add acc (toPolynomial e)) es

def mulPolynomials (acc : Polynomial K) : List (Expr K) → Polynomial K
  | [] => acc
  | e :: es => mulPolynomials (Polynomial.mul acc (toPolynomial e)) es

end

/-- The expression multiplied out, with like terms merged. -/
def expand (e : Expr K) : Expr K :=
  e.toPolynomial.toExpr

end Expr

end Semidefinite
