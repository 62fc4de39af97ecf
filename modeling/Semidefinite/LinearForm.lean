import Semidefinite.Expr.Polynomial

/-!
# Linear forms

A linear form is a coefficient for each variable of a list and a constant.
`LinearForm.ofExpr` reads one off an expression. It first looks at the terms as
they stand and expands only if one of them is neither constant nor a single
listed variable.
-/

namespace Semidefinite

/-- Coefficients aligned with a list of variables, and a constant. -/
structure LinearForm (K : Type) where
  coefficients : List K
  constant : K
  deriving BEq, Repr

/-- An expression, by its text, that is not linear in the variables asked for. -/
structure NonLinear where
  expr : String
  deriving DecidableEq, Repr

namespace NonLinear

def code (_ : NonLinear) : String := "EXPR_NON_LINEAR"

def message (e : NonLinear) : String :=
  "[" ++ e.code ++ "] Expression '" ++ e.expr ++ "' must be linear w.r.t. the variables"

end NonLinear

namespace LinearForm

variable {K : Type} [Scalar K]

def coefficient? (form : LinearForm K) (index : Nat) : Option K :=
  form.coefficients[index]?

def negated (form : LinearForm K) : LinearForm K :=
  ⟨form.coefficients.map (-·), -form.constant⟩

def isAffine (allowed : List Symbol) (terms : Tally TermKey K) : Bool :=
  terms.keys.all fun
    | .one => true
    | .symbol s => allowed.contains s
    | .monomial _ | .unexpanded _ => false

/-- The coefficients of `vars` and the constant among `terms`; what is
absent has the coefficient zero. -/
def ofTerms (vars : List Symbol) (terms : Tally TermKey K) : LinearForm K :=
  ⟨vars.map fun x => terms.total (.symbol x), terms.total .one⟩

/-- The terms of `e`, expanded only if they are not affine as they stand. -/
def affineTerms? (allowed : List Symbol) (e : Expr K) : Option (Tally TermKey K) :=
  if isAffine allowed e.terms then some e.terms
  else
    let expanded := e.expand.terms
    if isAffine allowed expanded then some expanded else none

/-- The linear form of `e` in `vars`. The nonce is added as a further term,
which keeps an expression of a single term a sum. -/
def ofExpr (nonce : Symbol) (e : Expr K) (vars : List Symbol) :
    Except NonLinear (LinearForm K) :=
  match affineTerms? (vars ++ [nonce]) (Expr.sumOf [.symbol nonce, e]) with
  | some terms => .ok (ofTerms vars terms)
  | none => .error ⟨e.text⟩

end LinearForm

/-- The linear form of `e` in `vars`, with a nonce drawn from the supply. -/
def Expr.linearForm {K : Type} [Scalar K] (e : Expr K) (vars : List Symbol) :
    ExceptT NonLinear (StateM NonceSupply) (LinearForm K) :=
  ExceptT.mk do
    let nonce ← NonceSupply.draw
    pure (LinearForm.ofExpr nonce e vars)

end Semidefinite
