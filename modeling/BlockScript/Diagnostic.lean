import BlockScript.Text.Span

/-!
# Diagnostics

Every error of this library is a cause: a constructor with the facts that belong to it. What a user reads is made
from the cause in one place per error type, as a `Diagnostic`.
-/

namespace BlockScript

/-- A remark on a byte range of the text an error is about. -/
structure Label where
  span : Text.Span
  text : String
deriving DecidableEq

/-- What is told about an error. -/
structure Diagnostic where
  /-- The stable key of this kind of error, for tools. -/
  kind : String
  message : String
  /-- The stage that raised the error and its name there, for people. -/
  code : String
  help : Option String := none
  labels : List Label := []
deriving DecidableEq

end BlockScript
