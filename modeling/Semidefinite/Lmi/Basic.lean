import Semidefinite.Lmi.Error
import Semidefinite.Lmi.Operand

/-!
# Linear matrix inequalities

`lhs ⪰ rhs` and its three relatives, between two matrices or a matrix and zero.
`Lmi.make` checks the operands: it refuses asymmetric matrices, matrices of
different shapes, and zero on both sides, in this order. The canonical form of
an inequality has a matrix on the left, zero on the right and a positive kind.
-/

namespace Semidefinite

/-- What rewriting a value leads to: the value as it stands, or one made anew. -/
inductive Rewriting (α : Type) where
  | unchanged (a : α)
  | remade (a : α)
  deriving DecidableEq, Repr

namespace Rewriting

variable {α : Type}

def result : Rewriting α → α
  | unchanged a => a
  | remade a => a

def isUnchanged : Rewriting α → Bool
  | unchanged _ => true
  | remade _ => false

end Rewriting

structure Lmi (K : Type) where
  lhs : Operand K
  rhs : Operand K
  kind : Kind
  deriving BEq

namespace Lmi

variable {K : Type} [Scalar K]

/-- Two matrices of one shape, or a matrix and zero. -/
def checkOperands : Operand K → Operand K → Except LmiError Unit
  | .matrix a, .matrix b => if a.shape = b.shape then .ok () else .error (.shape a.shape b.shape)
  | .zero, .zero => .error .invalidOperands
  | _, _ => .ok ()

/-- The inequality between two operands; symmetry is checked on request. -/
def make (lhs rhs : Operand K) (kind : Kind) (checkSymmetry : Bool) : Except LmiError (Lmi K) :=
  if checkSymmetry && !lhs.isSymmetric then .error (.nonSymmetric .left)
  else if checkSymmetry && !rhs.isSymmetric then .error (.nonSymmetric .right)
  else (checkOperands lhs rhs).map fun _ => ⟨lhs, rhs, kind⟩

/-- `m ⪰ 0`, for a symmetric matrix. -/
def ofMatrix (m : BlockMatrix K) : Except LmiError (Lmi K) :=
  make (.matrix m) .zero .psd true

def isStrict (l : Lmi K) : Bool :=
  l.kind.isStrict

def greater (l : Lmi K) : Operand K :=
  if l.kind.isPositive then l.lhs else l.rhs

def lesser (l : Lmi K) : Operand K :=
  if l.kind.isPositive then l.rhs else l.lhs

def freeSymbols (l : Lmi K) : List Symbol :=
  ascending (l.lhs.freeSymbols ++ l.rhs.freeSymbols)

def isCanonical (l : Lmi K) : Bool :=
  l.kind.isPositive && !l.lhs.isZero && l.rhs.isZero

/-- The matrix that the canonical form compares with zero: the greater side less
the lesser one. -/
def canonicalMatrix (l : Lmi K) : Except Fault (BlockMatrix K) :=
  match l.greater, l.lesser with
  | .matrix greater, .matrix lesser => greater.difference lesser
  | .matrix greater, .zero => .ok greater
  | .zero, .matrix lesser => .ok lesser.negate
  | .zero, .zero => .error .noMatrix

/-- Rewrites the inequality as `m ⪰ 0` or `m ≻ 0`; a canonical one is left as it
is. -/
def canonicalForm (l : Lmi K) : Except Fault (Rewriting (Lmi K)) :=
  if l.isCanonical then .ok (.unchanged l)
  else l.canonicalMatrix.map fun m => .remade ⟨.matrix m, .zero, l.kind.canonical⟩

def canonical (l : Lmi K) : Except Fault (Lmi K) :=
  l.canonicalForm.map Rewriting.result

def intoCanonical (l : Lmi K) : Except Fault (Lmi K) :=
  if l.isCanonical then .ok l else l.canonical

def text (l : Lmi K) : String :=
  l.lhs.text ++ " " ++ l.kind.sign ++ " " ++ l.rhs.text

end Lmi

end Semidefinite
