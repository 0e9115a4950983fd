/-!
# Operators

A minus sign stands for two operators, the binary one and the one that negates; which of them is meant depends on
where it stands (`BlockScript.Expr.Postfix`).
-/

namespace BlockScript

/-- The operators that join two values. -/
inductive BinaryOp where
  | add
  | sub
  | mul
  | div
  | rem
deriving DecidableEq

/-- The operators of an expression. -/
inductive Operator where
  | binary (op : BinaryOp)
  | neg
deriving DecidableEq

/-- On which side equally strong neighbours are joined first. -/
inductive Assoc where
  | left
  | right
deriving DecidableEq

def BinaryOp.symbol : BinaryOp → String
  | add => "+"
  | sub => "-"
  | mul => "*"
  | div => "/"
  | rem => "%"

/-- How tightly a binary operator holds its operands. -/
def BinaryOp.precedence : BinaryOp → Nat
  | add | sub => 1
  | mul | div | rem => 2

namespace Operator

def symbol : Operator → String
  | binary op => op.symbol
  | neg => "-"

/-- How tightly an operator holds its operands; negation is the tightest. -/
def precedence : Operator → Nat
  | binary op => op.precedence
  | neg => 3

def assoc : Operator → Assoc
  | binary _ => .left
  | neg => .right

end Operator

end BlockScript
