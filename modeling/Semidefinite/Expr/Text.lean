import Semidefinite.Expr.Basic

/-!
# The text of an expression

Sums are joined by ` + `, products by `*` with their sums in parentheses, and
powers are written with `**`, any base but a symbol in parentheses.
-/

namespace Semidefinite.Expr

variable {K : Type} [Scalar K]

mutual

def text : Expr K → String
  | const c => Scalar.exprText c
  | symbol s => s.text
  | sum ts => " + ".intercalate (termTexts ts)
  | product ts => "*".intercalate (factorTexts ts)
  | power (symbol s) n => s.text ++ "**" ++ Nat.repr n
  | power base n => "(" ++ text base ++ ")**" ++ Nat.repr n

def termTexts : List (Expr K) → List String
  | [] => []
  | e :: es => text e :: termTexts es

def factorTexts : List (Expr K) → List String
  | [] => []
  | sum ts :: es => ("(" ++ " + ".intercalate (termTexts ts) ++ ")") :: factorTexts es
  | e :: es => text e :: factorTexts es

end

end Semidefinite.Expr
