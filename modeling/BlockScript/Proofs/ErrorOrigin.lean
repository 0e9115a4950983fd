import BlockScript.Expr.Calculate
import BlockScript.Proofs.Results

/-!
# Where errors come from

Computing an expression has three stages, and for each of them there is a list of errors that it can raise:
`ExprError.OfText` for reading the tokens, `ExprError.OfOrder` for putting them in order, and `ExprError.OfEvaluation`
for working them off. Only a value that is too large is on two of the lists. What a stage does is followed down to its
single steps (`failsWith_scan`, `Postfix.failsWith_convert`, `Postfix.failsWith_evaluate`), so that an error tells its
stage (`calculate_eq_error_cases`).

So **computing fails with an error of reading exactly if reading the tokens does** (`calculate_eq_error_iff`), and a
name is found to be unknown in the second stage, where it is looked up, and only there (`calculate_eq_unknown`).
-/

namespace BlockScript

/-! ## The errors of each stage -/

namespace ExprError

/-- The error comes from reading the characters of an expression. -/
def OfText : ExprError → Prop
  | unexpectedCharacter _ _ | emptyExpression => True
  | _ => False

/-- The error comes from putting tokens in order, where the variables are `env`. -/
def OfOrder (env : Env) : ExprError → Prop
  | unmatchedParen | unexpectedSymbol _ | overflow => True
  | unknownSymbol x => env.get? x = none
  | _ => False

/-- The error comes from working off a postfix sequence. -/
def OfEvaluation : ExprError → Prop
  | nonInteger _ | divisionByZero | insufficientOperands _ | malformed _ | overflow => True
  | _ => False

end ExprError

open ExprError (OfText OfOrder OfEvaluation)

theorem Token.failsWith_scan (source : String) : FailsWith OfText (scan source) := by
  rw [scan]
  split
  · simp [OfText]
  · dsimp only
    split <;> simp [OfText]

namespace Postfix

theorem failsWith_step (env : Env) (y : Yard) (t : Token) : FailsWith (OfOrder env) (step env y t) := by
  rw [step]
  cases t.kind with
  | name =>
    cases hvalue : env.get? t.text with
    | none => simp [OfOrder, hvalue]
    | some v => exact failsWith_ok _
  | number | closeParen | arith _ =>
    dsimp only
    split <;> simp [OfOrder]
  | openParen | compare _ => simp [OfOrder]

theorem failsWith_convert (env : Env) (y : Yard) (ts : List Token) : FailsWith (OfOrder env) (convert env y ts) := by
  induction ts generalizing y with
  | nil =>
    rw [convert]
    split <;> simp [OfOrder]
  | cons t ts ih =>
    rw [convert]
    refine (failsWith_step env y t).bind ?_
    rintro ⟨items, y'⟩
    exact (ih y').bind fun later => failsWith_ok _

end Postfix

theorem failsWith_orOverflow (v : Option Value) : FailsWith OfEvaluation (ExprError.orOverflow v) := by
  cases v <;> simp [ExprError.orOverflow, OfEvaluation]

theorem BinaryOp.failsWith_apply (op : BinaryOp) (a b : Value) : FailsWith OfEvaluation (op.apply a b) := by
  cases op with
  | add | sub | mul => exact failsWith_orOverflow _
  | div | rem =>
    rw [apply]
    split
    · simp [OfEvaluation]
    · exact failsWith_orOverflow _

theorem Operator.failsWith_insufficient (o : Operator) :
    FailsWith OfEvaluation (.error (.insufficientOperands o) : Except ExprError (List Value)) := by
  simp [OfEvaluation]

theorem Operator.failsWith_apply (o : Operator) (stack : List Value) : FailsWith OfEvaluation (o.apply stack) := by
  match o, stack with
  | neg, [] => exact failsWith_insufficient neg
  | neg, _ :: _ => exact (failsWith_orOverflow _).bind fun v => failsWith_ok _
  | binary op, [] => exact failsWith_insufficient (binary op)
  | binary op, [_] => exact failsWith_insufficient (binary op)
  | binary op, b :: a :: _ => exact (op.failsWith_apply a b).bind fun v => failsWith_ok _

theorem Item.failsWith_run (stack : List Value) (i : Item) : FailsWith OfEvaluation (i.run stack) := by
  match i with
  | .operand (.int v) => exact failsWith_ok _
  | .operand (.real numeral) => simp [run, OfEvaluation]
  | .op o => exact o.failsWith_apply stack

theorem Postfix.failsWith_evaluate (items : List Item) : FailsWith OfEvaluation (evaluate items) := by
  have hrun : ∀ stack, FailsWith OfEvaluation (items.foldlM Item.run stack) := by
    induction items with
    | nil => exact failsWith_ok
    | cons i items ih =>
      intro stack
      rw [List.foldlM_cons]
      exact (i.failsWith_run stack).bind ih
  rw [evaluate]
  refine (hrun []).bind fun stack => ?_
  split
  · exact failsWith_ok _
  · simp [OfEvaluation]

/-! ## The errors of an expression -/

section Errors

variable {env : Env} {source : String} {e : ExprError}

/-- An expression fails because its tokens cannot be read, because they cannot be put in order, or because the items
cannot be worked off. -/
theorem calculate_eq_error_cases (h : calculate env source = .error e) :
    Token.scan source = .error e ∧ e.OfText ∨ e.OfOrder env ∨ e.OfEvaluation := by
  rcases bind_eq_error_iff.1 h with h | ⟨ts, -, h⟩
  · exact .inl ⟨h, Token.failsWith_scan source e h⟩
  · rcases bind_eq_error_iff.1 h with h | ⟨items, -, h⟩
    · exact .inr (.inl (Postfix.failsWith_convert env .start ts e h))
    · exact .inr (.inr (Postfix.failsWith_evaluate items e h))

/-- An expression fails with an error of reading exactly if its tokens cannot be read. -/
theorem calculate_eq_error_iff (he : e.OfText) (env : Env) (source : String) :
    calculate env source = .error e ↔ Token.scan source = .error e := by
  constructor
  · intro h
    rcases calculate_eq_error_cases h with ⟨h, -⟩ | hlater
    · exact h
    · -- neither of the later lists holds an error of reading
      cases e with
      | unexpectedCharacter _ _ | emptyExpression => exact hlater.elim False.elim False.elim
      | _ => exact he.elim
  · intro h
    rw [calculate, h]
    rfl

/-- An expression fails because of an unknown name only if the name has no value. -/
theorem calculate_eq_unknown {x : String} (h : calculate env source = .error (.unknownSymbol x)) :
    env.get? x = none := by
  rcases calculate_eq_error_cases h with ⟨-, htext⟩ | horder | hevaluation
  · exact htext.elim
  · exact horder
  · exact hevaluation.elim

end Errors

end BlockScript
