/-!
# Operators of the C subset

* `BinaryOp`: arithmetic, shifts, bitwise operators and comparisons.
* `LogicalOp`: the two operators that may skip their right operand.
* `UnaryOp`: operators with one operand, as they are written.
-/

namespace PathScout

/-- Operators that evaluate both operands. -/
inductive BinaryOp where
  | add | sub | mul | div | rem
  | shl | shr
  | bitAnd | bitOr | bitXor
  | eq | ne | lt | le | gt | ge
deriving DecidableEq, Hashable

namespace BinaryOp

/-- Does the operator compare its operands? -/
def isComparison : BinaryOp → Bool
  | eq | ne | lt | le | gt | ge => true
  | _ => false

/-- May the operands be exchanged? -/
def isCommutative : BinaryOp → Bool
  | add | mul | bitAnd | bitOr | bitXor | eq | ne => true
  | _ => false

/-- The comparison that holds exactly when this one does not. -/
def negated? : BinaryOp → Option BinaryOp
  | eq => some ne
  | ne => some eq
  | lt => some ge
  | le => some gt
  | gt => some le
  | ge => some lt
  | _ => none

/-- The comparison with its operands exchanged. -/
def reversed? : BinaryOp → Option BinaryOp
  | eq => some eq
  | ne => some ne
  | lt => some gt
  | le => some ge
  | gt => some lt
  | ge => some le
  | _ => none

/-- How an operator is written. -/
def symbol : BinaryOp → String
  | add => "+"
  | sub => "-"
  | mul => "*"
  | div => "/"
  | rem => "%"
  | shl => "<<"
  | shr => ">>"
  | bitAnd => "&"
  | bitOr => "|"
  | bitXor => "^"
  | eq => "=="
  | ne => "!="
  | lt => "<"
  | le => "<="
  | gt => ">"
  | ge => ">="

/-- Every operator. -/
def all : List BinaryOp :=
  [add, sub, mul, div, rem, shl, shr, bitAnd, bitOr, bitXor, eq, ne, lt, le, gt, ge]

/-- The operator that is written as `s`. -/
def ofSymbol? (s : String) : Option BinaryOp := all.find? fun op => op.symbol == s

end BinaryOp

/-- Operators that evaluate their right operand only if the left one does not decide. -/
inductive LogicalOp where
  | and | or
deriving DecidableEq

/-- Operators with one operand. -/
inductive UnaryOp where
  | neg | not | bitNot
  | preInc | preDec | postInc | postDec
  | deref | addrOf
deriving DecidableEq

end PathScout
