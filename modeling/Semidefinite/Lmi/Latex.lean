import Semidefinite.Lmi.Basic

/-!
# Inequalities in LaTeX

Matrices become `bmatrix` environments. A product is written by juxtaposition,
with a leading factor minus one as a bare sign, and sums inside products and
bases other than symbols are parenthesised.
-/

namespace Semidefinite

/-- Text in parentheses that grow with it. -/
def latexParens (text : String) : String :=
  "\\left(" ++ text ++ "\\right)"

namespace Expr

variable {K : Type} [Scalar K]

mutual

def latex : Expr K → String
  | const c => Scalar.exprText c
  | symbol s => s.text
  | sum ts => " + ".intercalate (latexTerms ts)
  | product [] => ""
  | product (const c :: rest) =>
    if c == -1 then "-" ++ " ".intercalate (latexFactors rest)
    else " ".intercalate (Scalar.exprText c :: latexFactors rest)
  | product (e :: rest) => " ".intercalate (latexFactors (e :: rest))
  | power (symbol s) n => s.text ++ "^\x7b" ++ Nat.repr n ++ "\x7d"
  | power base n => latexParens (latex base) ++ "^\x7b" ++ Nat.repr n ++ "\x7d"

def latexTerms : List (Expr K) → List String
  | [] => []
  | e :: es => latex e :: latexTerms es

def latexFactors : List (Expr K) → List String
  | [] => []
  | sum ts :: es => latexParens (" + ".intercalate (latexTerms ts)) :: latexFactors es
  | e :: es => latex e :: latexFactors es

end

end Expr

variable {K : Type} [Scalar K]

def SymMatrix.latex (m : SymMatrix K) : String :=
  let rowText (row : List (Expr K)) := " & ".intercalate (row.map Expr.latex)
  "\\begin\x7bbmatrix\x7d" ++ "\\\\".intercalate (m.toRows.map rowText) ++ "\\end\x7bbmatrix\x7d"

def Operand.latex : Operand K → Except Fault String
  | .zero => .ok "0"
  | .matrix m => SymMatrix.latex <$> m.toDense?

def Lmi.latex (l : Lmi K) : Except Fault String := do
  let lhs ← l.lhs.latex
  let rhs ← l.rhs.latex
  pure (lhs ++ " " ++ l.kind.latexSign ++ " " ++ rhs)

end Semidefinite
