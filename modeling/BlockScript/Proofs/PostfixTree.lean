import BlockScript.Expr.Calculate

/-!
# Trees of postfix items

A postfix sequence that has a value is the postorder of a tree of operators with operands as leaves. Evaluating the
postorder on a stack is evaluating the tree recursively, left part before right part and both before the operator
(`evaluate_postorder`); the induction is over the tree with any stack below (`foldlM_run_postorder`).
-/

namespace BlockScript.Postfix

open ExprError (orOverflow)

/-- Operands joined by operators. -/
inductive Tree where
  | leaf (n : Operand)
  | neg (t : Tree)
  | binary (op : BinaryOp) (a b : Tree)

namespace Tree

/-- The items of a tree, each operator behind its operands. -/
def postorder : Tree → List Item
  | leaf n => [.operand n]
  | neg t => t.postorder ++ [.op .neg]
  | binary op a b => a.postorder ++ b.postorder ++ [.op (.binary op)]

/-- The value of a tree, or the first error on the way to it. -/
def eval : Tree → Except ExprError Value
  | leaf (.int v) => .ok v
  | leaf (.real numeral) => .error (.nonInteger numeral)
  | neg t => do
    let v ← t.eval
    orOverflow (Value.neg? v)
  | binary op a b => do
    let x ← a.eval
    let y ← b.eval
    op.apply x y

/-- The postorder of a tree leaves its value on top of the stack, or stops at its first error. -/
theorem foldlM_run_postorder (t : Tree) (stack : List Value) :
    t.postorder.foldlM Item.run stack = t.eval.map (· :: stack) := by
  induction t generalizing stack with
  | leaf n => cases n <;> rfl
  | neg t ih =>
    rw [postorder, List.foldlM_append, ih, eval]
    cases t.eval with
    | error e => rfl
    | ok v =>
      change (Operator.neg.apply (v :: stack) >>= pure) = (orOverflow (Value.neg? v)).map (· :: stack)
      rw [bind_pure, Operator.apply]
      cases orOverflow (Value.neg? v) <;> rfl
  | binary op a b iha ihb =>
    rw [postorder, List.foldlM_append, List.foldlM_append, iha, eval]
    cases a.eval with
    | error e => rfl
    | ok x =>
      change (b.postorder.foldlM Item.run (x :: stack) >>= _) = _
      rw [ihb]
      cases b.eval with
      | error e => rfl
      | ok y =>
        change ((Operator.binary op).apply (y :: x :: stack) >>= pure) = (op.apply x y).map (· :: stack)
        rw [bind_pure, Operator.apply]
        cases op.apply x y <;> rfl

/-- **Postorder evaluation**: the value of the postorder of a tree is the value of the tree, errors included. -/
theorem evaluate_postorder (t : Tree) : evaluate t.postorder = t.eval := by
  rw [evaluate, foldlM_run_postorder]
  cases t.eval <;> rfl

end Tree

end BlockScript.Postfix
