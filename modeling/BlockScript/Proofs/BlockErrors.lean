import BlockScript.Proofs.Effects
import BlockScript.Proofs.MaximalMunch
import BlockScript.Proofs.Results

/-!
# Errors of single blocks

For each kind of block there is a list of errors that it can give, with the conditions under which it does; the checks
are made in a fixed order, so that the conditions exclude each other (`RunError.Fits`). **A block fails with an error
exactly if the error fits it** (`Block.effect_eq_error_iff`). Whatever is said about the errors of a block is read off
this list.
-/

namespace BlockScript

open Text (trim isBlankText)

/-- The text is a letter or an underscore with letters, digits and underscores behind it. -/
def IsIdentifier (text : String) : Prop := ∃ x : Identifier, text.toList = x.text

/-- The error is the one that a block gives where the variables are `env`. -/
def RunError.Fits (env : Env) (err : RunError) : Block → Prop
  | .declare entries =>
    ∃ names x later, declaredNames entries = names ++ x :: later ∧ (∀ y ∈ names, IsIdentifier y) ∧ ¬ IsIdentifier x ∧
      err = .invalidIdentifier x
  | .assign target literal =>
    trim target ≠ "" ∧
      (env.isDeclared (trim target) = false ∧ err = .undeclaredVariable (trim target) ∨
        env.isDeclared (trim target) = true ∧ Value.readLiteral? literal = none ∧ err = .notAnInteger literal)
  | .calculate target source =>
    trim target = "" ∧ err = .missingOperand .targetVariable ∨
      trim target ≠ "" ∧ trim source = "" ∧ err = .missingOperand .expression ∨
      trim target ≠ "" ∧ trim source ≠ "" ∧
        (env.isDeclared (trim target) = false ∧ err = .undeclaredVariable (trim target) ∨
          env.isDeclared (trim target) = true ∧ ∃ e, calculate env source = .error e ∧ err = .expression e)
  | .cond lhs _ rhs _ =>
    trim lhs = "" ∧ err = .missingOperand .leftHandSide ∨
      trim lhs ≠ "" ∧ trim rhs = "" ∧ err = .missingOperand .rightHandSide ∨
      trim lhs ≠ "" ∧ trim rhs ≠ "" ∧
        ((∃ e, calculate env lhs = .error e ∧ err = .expression e) ∨
          (∃ v, calculate env lhs = .ok v) ∧ ∃ e, calculate env rhs = .error e ∧ err = .expression e)

variable {env : Env} {err : RunError} {target literal source lhs rhs : String} {op : Comparison}

theorem isIdentifier_iff {x : String} : IsIdentifier x ↔ Lexeme.isName x = true := Lexeme.isName_iff.symm

theorem execDeclare_eq_error_iff {entries : List String} :
    execDeclare entries env = .error err ↔ err.Fits env (.declare entries) := by
  constructor
  · intro h
    rw [execDeclare] at h
    split at h
    · rename_i x hx
      cases h
      obtain ⟨hbad, names, later, hnames, hgood⟩ := List.find?_eq_some_iff_append.1 hx
      refine ⟨names, x, later, hnames, fun y hy => ?_, ?_, rfl⟩
      · simpa [isIdentifier_iff] using hgood y hy
      · simpa [isIdentifier_iff] using hbad
    · cases h
  · rintro ⟨names, x, later, hnames, hgood, hbad, rfl⟩
    have hfind : (declaredNames entries).find? (fun name => !Lexeme.isName name) = some x := by
      refine List.find?_eq_some_iff_append.2 ⟨?_, names, later, hnames, fun y hy => ?_⟩
      · simpa [isIdentifier_iff] using hbad
      · simpa [isIdentifier_iff] using hgood y hy
    simp only [execDeclare, hfind]

theorem execAssign_eq_error_iff :
    execAssign target literal env = .error err ↔ err.Fits env (.assign target literal) := by
  rw [RunError.Fits]
  by_cases htarget : trim target = ""
  · simp [execAssign, execAssignWith, htarget]
  · cases hdeclared : env.isDeclared (trim target) with
    | false =>
      have hexec : execAssign target literal env = .error (.undeclaredVariable (trim target)) := by
        simp [execAssign, execAssignWith, htarget, hdeclared]
      rw [hexec, error_eq_error_iff]
      simp [htarget]
    | true =>
      cases hliteral : Value.readLiteral? literal with
      | none =>
        have hexec : execAssign target literal env = .error (.notAnInteger literal) := by
          simp [execAssign, execAssignWith, htarget, hdeclared, hliteral]
        rw [hexec, error_eq_error_iff]
        simp [htarget]
      | some v => simp [execAssign, execAssignWith, htarget, hdeclared, hliteral, Env.set_of_isDeclared hdeclared]

/-- What starts with the value of an expression fails as the expression does, or further on. -/
theorem blockValue_bind_eq_error_iff {α : Type} {f : Value → Except RunError α} :
    blockValue env source >>= f = .error err ↔ (∃ e, calculate env source = .error e ∧ err = .expression e) ∨
      ∃ v, calculate env source = .ok v ∧ f v = .error err := by
  rw [bind_eq_error_iff, blockValue, mapError_eq_error_iff]
  simp only [mapError_eq_ok_iff]

theorem execCalculate_eq_error_iff :
    execCalculate target source env = .error err ↔ err.Fits env (.calculate target source) := by
  rw [RunError.Fits]
  by_cases htarget : trim target = ""
  · have hexec : execCalculate target source env = .error (.missingOperand .targetVariable) := by
      simp [execCalculate, execCalculateWith, htarget]
    rw [hexec, error_eq_error_iff]
    simp [htarget]
  · by_cases hsource : trim source = ""
    · have hexec : execCalculate target source env = .error (.missingOperand .expression) := by
        simp [execCalculate, execCalculateWith, htarget, Text.isBlankText_iff.2 hsource]
      rw [hexec, error_eq_error_iff]
      simp [htarget, hsource]
    · have hblank := Text.isBlankText_eq_false hsource
      cases hdeclared : env.isDeclared (trim target) with
      | false =>
        have hexec : execCalculate target source env = .error (.undeclaredVariable (trim target)) := by
          simp [execCalculate, execCalculateWith, htarget, hblank, hdeclared]
        rw [hexec, error_eq_error_iff]
        simp [htarget, hsource]
      | true =>
        have hexec : execCalculate target source env = blockValue env source >>= fun v => env.set (trim target) v := by
          simp [execCalculate, execCalculateWith, htarget, hblank, hdeclared]
        rw [hexec, blockValue_bind_eq_error_iff]
        simp [htarget, hsource, Env.set_of_isDeclared hdeclared]

theorem condition_eq_error_iff (body : List Block) :
    condition lhs op rhs env = .error err ↔ err.Fits env (.cond lhs op rhs body) := by
  rw [RunError.Fits]
  by_cases hlhs : trim lhs = ""
  · have hcondition : condition lhs op rhs env = .error (.missingOperand .leftHandSide) := by
      simp [condition, Text.isBlankText_iff.2 hlhs]
    rw [hcondition, error_eq_error_iff]
    simp [hlhs]
  · have hblank := Text.isBlankText_eq_false hlhs
    by_cases hrhs : trim rhs = ""
    · have hcondition : condition lhs op rhs env = .error (.missingOperand .rightHandSide) := by
        simp [condition, hblank, Text.isBlankText_iff.2 hrhs]
      rw [hcondition, error_eq_error_iff]
      simp [hlhs, hrhs]
    · have hcondition : condition lhs op rhs env =
          blockValue env lhs >>= fun a => blockValue env rhs >>= fun b => .ok (op.holds a b) := by
        simp only [condition, hblank, Text.isBlankText_eq_false hrhs]
        rfl
      rw [hcondition, blockValue_bind_eq_error_iff]
      simp only [blockValue_bind_eq_error_iff]
      simp [hlhs, hrhs]

/-- **A block fails with exactly the errors that fit it.** -/
theorem Block.effect_eq_error_iff {b : Block} : b.effect env = .error err ↔ err.Fits env b := by
  cases b with
  | declare entries =>
    rw [effect, map_eq_error_iff]
    exact execDeclare_eq_error_iff
  | assign target literal =>
    rw [effect, map_eq_error_iff]
    exact execAssign_eq_error_iff
  | calculate target source =>
    rw [effect, map_eq_error_iff]
    exact execCalculate_eq_error_iff
  | cond lhs op rhs body =>
    rw [effect, map_eq_error_iff]
    exact condition_eq_error_iff body

end BlockScript
