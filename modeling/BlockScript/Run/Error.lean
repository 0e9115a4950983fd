import BlockScript.Expr.Error

/-!
# Errors of a block
-/

namespace BlockScript

/-- A field of a block that has to be filled in. -/
inductive BlockField where
  | targetVariable
  | expression
  | leftHandSide
  | rightHandSide
deriving DecidableEq

def BlockField.text : BlockField → String
  | targetVariable => "target variable"
  | expression => "expression"
  | leftHandSide => "left-hand side"
  | rightHandSide => "right-hand side"

/-- Why a block cannot be executed. -/
inductive RunError where
  | invalidIdentifier (name : String)
  | undeclaredVariable (name : String)
  | notAnInteger (literal : String)
  | missingOperand (field : BlockField)
  | expression (cause : ExprError)
deriving DecidableEq

/-- What is told about an error of a block; one of its expression speaks for itself. -/
def RunError.diagnostic : RunError → Diagnostic
  | invalidIdentifier name =>
    { kind := "invalid_identifier"
      message := s!"Invalid variable name `{name}`"
      code := "run::invalid_identifier"
      help := some "names start with a letter or `_` followed by letters, digits or `_`" }
  | undeclaredVariable name =>
    { kind := "undeclared_variable"
      message := s!"Undeclared variable `{name}`"
      code := "run::undeclared_variable"
      help := some s!"add `{name}` to a declaration block placed above this one" }
  | notAnInteger literal =>
    { kind := "not_an_integer", message := s!"`{literal}` is not an integer literal", code := "run::not_an_integer" }
  | missingOperand field =>
    { kind := "missing_operand", message := s!"Missing {field.text}", code := "run::missing_operand" }
  | expression cause => cause.diagnostic

end BlockScript
