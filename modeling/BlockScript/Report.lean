import BlockScript.Json.Print
import BlockScript.Program.Basic
import BlockScript.Run.Exec

/-!
# Reports

What a run gave, told in three ways: as plain text, as a document for tools that mark the failing block themselves, and
as a diagnostic that points into the failing expression.
-/

namespace BlockScript

/-- One line `name = value` for each variable, in declaration order. -/
def Env.render (env : Env) : String :=
  if env.isEmpty then "(no variables)\n"
  else String.join (env.vars.map fun (name, v) => name ++ " = " ++ v.text ++ "\n")

/-- Variables as a record. -/
def Env.toData (env : Env) : Data := .record (env.vars.map fun (name, v) => (name, .number v.text))

namespace Report

/-- The plain text of a result. -/
def render : Except Failure Env → String
  | .ok env => env.render
  | .error f => s!"block {f.path.text}: {f.error.diagnostic.message}\n"

/-- The document of a result. -/
def toData : Except Failure Env → Data
  | .ok env => .record [("status", .text "success"), ("variables", env.toData)]
  | .error f =>
    .record [("status", .text "failure"), ("block", .text f.path.text), ("path", .list (f.path.map .ofNat)),
      ("kind", .text f.error.diagnostic.kind), ("message", .text f.error.diagnostic.message)]

/-- Whether reading the tokens of an expression gives this very error. -/
def failsToScan (source : String) (e : ExprError) : Bool :=
  match Token.scan source with
  | .error e' => e' = e
  | .ok _ => false

/-- The expression that a failure is about. In a condition it is the first side whose tokens give the same error. -/
def failingExpression? (t : Program) (f : Failure) : Option String :=
  match f.error with
  | .expression e =>
    match t.get? f.path with
    | some (.calculate _ expression) => some expression
    | some (.cond lhs _ rhs _) => [lhs, rhs].find? (failsToScan · e)
    | _ => none
  | _ => none

/-- A diagnostic with the text that its labels point into, if it has any. -/
structure Annotated where
  diagnostic : Diagnostic
  source : Option String

/-- What is told about a failure. Its labels are kept only if the expression they point into is found. -/
def annotate (t : Program) (f : Failure) : Annotated :=
  let d := f.error.diagnostic
  let message := s!"{f.title}: {d.message}"
  match failingExpression? t f, d.labels with
  | some source, l :: ls => ⟨{ d with message := message, labels := l :: ls }, some source⟩
  | _, _ => ⟨{ d with message := message, labels := [] }, none⟩

end Report

end BlockScript
