import BlockScript.Env
import BlockScript.Expr.Token
import BlockScript.Text.Split
import BlockScript.Value.Numeral

/-!
# Postfix order

`Postfix.ofTokens` puts the tokens of an infix expression into postfix order. Operands go out as they come. An operator
waits on a stack until the next operator is too weak to keep it there, until its parenthesis closes, or until the
tokens end. Names are replaced by their values on the way, so what comes out holds numbers and operators only.
-/

namespace BlockScript

/-- A number as written: an integer, or a numeral with a fraction, which is left for evaluation to refuse. -/
inductive Operand where
  | int (v : Value)
  | real (numeral : String)
deriving DecidableEq

/-- One element of a postfix sequence. -/
inductive Item where
  | operand (n : Operand)
  | op (o : Operator)
deriving DecidableEq

namespace Operand

/-- The digits before the point, if all digits behind it are zeros. -/
def integral? (numeral : List Char) : Option (List Char) :=
  let (whole, fraction) := (Text.cutAt (· == '.') numeral).getD (numeral, [])
  if fraction.all (· == '0') then some whole else none

/-- The number that a numeral stands for. An integer has to be readable as a value, and behind a prefix minus the
magnitude of the smallest value will do too: there the second component says that the minus is part of the number. -/
def ofNumeral? (negated : Bool) (numeral : String) : Option (Operand × Bool) :=
  match integral? numeral.toList with
  | none => some (.real numeral, false)
  | some whole =>
    match (Value.read whole).toOption with
    | some v => some (.int v, false)
    | none =>
      if negated ∧ Text.unsigned? whole = some Value.smallestMagnitude then some (.int Value.smallest, true) else none

end Operand

namespace Postfix

/-- What waits on the stack. -/
inductive Pending where
  | op (o : Operator)
  | paren
deriving DecidableEq

/-- Where the conversion stands between two tokens. -/
structure Yard where
  /-- The operators and parentheses that wait, the latest first. -/
  stack : List Pending
  /-- Whether an operand comes next, so that a minus negates. -/
  expectsOperand : Bool
  /-- Whether the token before was a minus that negates. -/
  afterNeg : Bool
deriving DecidableEq

/-- Before the first token. -/
def Yard.start : Yard := ⟨[], true, false⟩

/-- Whether a waiting operator goes out before the binary operator `op` comes in. -/
def yields (waiting : Operator) (op : BinaryOp) : Bool :=
  op.precedence < waiting.precedence ∨
    (waiting.precedence = op.precedence ∧ (Operator.binary op).assoc = .left)

/-- The operators that go out for `op`, and what stays on the stack. -/
def drain (op : BinaryOp) : List Pending → List Item × List Pending
  | .op o :: stack =>
    if yields o op then
      let later := drain op stack
      (.op o :: later.1, later.2)
    else ([], .op o :: stack)
  | stack => ([], stack)

/-- The operators that go out for a closing parenthesis, and the stack below its partner, if it has one. -/
def close? : List Pending → Option (List Item × List Pending)
  | [] => none
  | .paren :: stack => some ([], stack)
  | .op o :: stack => (close? stack).map fun (items, below) => (.op o :: items, below)

/-- The operators that go out at the end, if no parenthesis waits among them. -/
def flush? : List Pending → Option (List Item)
  | [] => some []
  | .paren :: _ => none
  | .op o :: stack => (flush? stack).map (.op o :: ·)

/-- Takes one token in: the items that go out and where the conversion stands then. -/
def step (env : Env) (y : Yard) (t : Token) : Except ExprError (List Item × Yard) :=
  match t.kind with
  | .number =>
    match Operand.ofNumeral? y.afterNeg t.text with
    | none => .error .overflow
    | some (n, absorbsMinus) =>
      .ok ([.operand n], ⟨if absorbsMinus then y.stack.tail else y.stack, false, false⟩)
  | .name =>
    match env.get? t.text with
    | none => .error (.unknownSymbol t.text)
    | some v => .ok ([.operand (.int v)], ⟨y.stack, false, false⟩)
  | .openParen => .ok ([], ⟨.paren :: y.stack, true, false⟩)
  | .closeParen =>
    match close? y.stack with
    | none => .error .unmatchedParen
    | some (items, stack) => .ok (items, ⟨stack, false, false⟩)
  | .compare _ => .error (.unexpectedSymbol t.text)
  | .arith op =>
    if op = .sub ∧ y.expectsOperand then .ok ([], ⟨.op .neg :: y.stack, true, true⟩)
    else
      let (items, stack) := drain op y.stack
      .ok (items, ⟨.op (.binary op) :: stack, true, false⟩)

/-- The postfix order of what is still to come. -/
def convert (env : Env) : Yard → List Token → Except ExprError (List Item)
  | y, [] =>
    match flush? y.stack with
    | none => .error .unmatchedParen
    | some items => .ok items
  | y, t :: ts => do
    let (items, y') ← step env y t
    let later ← convert env y' ts
    return items ++ later

/-- The postfix order of an expression, with the names replaced by their values in `env`. -/
def ofTokens (env : Env) (ts : List Token) : Except ExprError (List Item) := convert env .start ts

end Postfix

end BlockScript
