import BlockScript.Diagnostic
import BlockScript.Expr.Operator

/-!
# Errors of an expression

The first two constructors come from reading characters, the next three from ordering tokens, and the rest from
computing.
-/

namespace BlockScript

/-- Why an expression has no value. -/
inductive ExprError where
  | unexpectedCharacter (text : String) (span : Text.Span)
  | emptyExpression
  | unmatchedParen
  | unknownSymbol (name : String)
  | unexpectedSymbol (symbol : String)
  | nonInteger (numeral : String)
  | divisionByZero
  | insufficientOperands (op : Operator)
  | malformed (remaining : Nat)
  | overflow
deriving DecidableEq

/-- What is told about an error of an expression. Only an unexpected character has a place to point at. -/
def ExprError.diagnostic : ExprError → Diagnostic
  | unexpectedCharacter text span =>
    { kind := "unexpected_character"
      message := s!"Unexpected character `{text}` in expression"
      code := "lex::unexpected_character"
      help := some "expressions may only contain integers, names, `+ - * / %` and parentheses"
      labels := [⟨span, "not part of any token"⟩] }
  | emptyExpression =>
    { kind := "empty_expression", message := "Expression is empty", code := "lex::empty_expression" }
  | unmatchedParen =>
    { kind := "unmatched_paren", message := "Unmatched parenthesis", code := "parse::unmatched_paren" }
  | unknownSymbol name =>
    { kind := "unknown_symbol"
      message := s!"Unknown symbol `{name}`"
      code := "parse::unknown_symbol"
      help := some s!"declare `{name}` in a declaration block before using it" }
  | unexpectedSymbol symbol =>
    { kind := "unexpected_symbol"
      message := s!"Unexpected symbol `{symbol}`"
      code := "parse::unexpected_symbol"
      help := some "comparisons belong in a condition block, not in arithmetic" }
  | nonInteger numeral =>
    { kind := "non_integer_value", message := s!"`{numeral}` is not an integer", code := "eval::non_integer" }
  | divisionByZero =>
    { kind := "division_by_zero", message := "Division by zero", code := "eval::division_by_zero" }
  | insufficientOperands op =>
    { kind := "insufficient_operands"
      message := s!"Not enough operands for `{op.symbol}`"
      code := "eval::insufficient_operands" }
  | malformed remaining =>
    { kind := "malformed_expression"
      message := s!"Malformed expression: {remaining} values left after evaluation"
      code := "eval::malformed"
      help := some "every value must be joined to the next one by an operator" }
  | overflow =>
    { kind := "integer_overflow"
      message := "Integer overflow"
      code := "eval::overflow"
      help := some "values are 64-bit signed integers" }

end BlockScript
