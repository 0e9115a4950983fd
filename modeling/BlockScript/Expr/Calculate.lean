import BlockScript.Expr.Postfix

/-!
# The value of an expression

A postfix sequence is computed on a stack of values, the latest first. `calculate` is the whole way from the text of an
expression to its value.
-/

namespace BlockScript

/-- A computed value, where the lack of one means that it does not fit. -/
def ExprError.orOverflow : Option Value → Except ExprError Value
  | some v => .ok v
  | none => .error .overflow

open ExprError (orOverflow)

/-- Joins two values. A zero divisor is told apart from a result that does not fit. -/
def BinaryOp.apply (op : BinaryOp) (a b : Value) : Except ExprError Value :=
  match op with
  | .add => orOverflow (Value.add? a b)
  | .sub => orOverflow (Value.sub? a b)
  | .mul => orOverflow (Value.mul? a b)
  | .div => if b = 0 then .error .divisionByZero else orOverflow (Value.div? a b)
  | .rem => if b = 0 then .error .divisionByZero else orOverflow (Value.rem? a b)

/-- Replaces the operands of an operator on the stack by its result. The right operand is on top. -/
def Operator.apply : Operator → List Value → Except ExprError (List Value)
  | neg, b :: stack => do
    let v ← orOverflow (Value.neg? b)
    return v :: stack
  | binary op, b :: a :: stack => do
    let v ← op.apply a b
    return v :: stack
  | o, _ => .error (.insufficientOperands o)

/-- Works off one item. -/
def Item.run (stack : List Value) : Item → Except ExprError (List Value)
  | operand (.int v) => .ok (v :: stack)
  | operand (.real numeral) => .error (.nonInteger numeral)
  | op o => o.apply stack

/-- The value of a postfix sequence: the one that is left on the stack. -/
def Postfix.evaluate (items : List Item) : Except ExprError Value := do
  match ← items.foldlM Item.run [] with
  | [v] => return v
  | stack => .error (.malformed stack.length)

/-- The value of an expression in an environment. -/
def calculate (env : Env) (source : String) : Except ExprError Value := do
  let tokens ← Token.scan source
  let items ← Postfix.ofTokens env tokens
  Postfix.evaluate items

end BlockScript
