import BlockScript.Proofs.BlockErrors
import BlockScript.Proofs.ErrorOrigin
import Mathlib.Data.List.TakeWhile

/-!
# Failures fit their blocks

A block fails with an error exactly if the error fits it (`Block.effect_eq_error_iff`), and a run that fails has reached
the block it names. So **the error of a failure fits the block that the failure names** (`failure_fits`).

Two errors cannot come up at all in a run. An expression is never found to be empty when it is read: a block looks at
its trimmed text first, and trimming leaves nothing exactly if all characters are blank (`calculate_eq_empty_iff`). And
no variable is found to be missing when it is set: the block has looked for it before, so it does not matter what would
be done (`execAssignWith_eq`, `execCalculateWith_eq`).
-/

namespace BlockScript

open Program (get?)
open Text (trim trimStart trimEnd isBlank isBlankText blankFree)

/-! ## Blank expressions -/

theorem Text.trim_eq_empty_iff {s : String} : trim s = "" ↔ ∀ c ∈ s.toList, isBlank c = true := by
  rw [trim, String.ofList_eq_empty_iff, trimEnd, List.reverse_eq_nil_iff, List.dropWhile_eq_nil_iff, trimStart]
  simp only [List.mem_reverse]
  constructor
  · intro h
    -- the first character that trimming at the start leaves would not be blank
    cases hstart : s.toList.dropWhile isBlank with
    | nil => exact List.dropWhile_eq_nil_iff.1 hstart
    | cons c cs =>
      have hc := h c (by rw [hstart]; exact List.mem_cons_self)
      have hhead := List.head?_dropWhile_not isBlank s.toList
      simp [hstart, hc] at hhead
  · intro h c hc
    exact h c ((List.dropWhile_sublist isBlank).subset hc)

/-- Reading an expression finds it empty exactly if trimming it leaves nothing. -/
theorem calculate_eq_empty_iff {env : Env} {source : String} :
    calculate env source = .error .emptyExpression ↔ trim source = "" := by
  have hempty : ExprError.OfText .emptyExpression := trivial
  rw [calculate_eq_error_iff hempty, Text.trim_eq_empty_iff]
  by_cases hne : blankFree source.toList = []
  · exact iff_of_true (Token.scan_of_blankFree_nil hne) (Text.blankFree_eq_nil_iff.1 hne)
  · refine iff_of_false (fun hscan => ?_) fun hblank => ?_
    · rcases Token.scan_cases hne with ⟨ts, hscan', -⟩ | ⟨ls, c, rest, span, hscan', -⟩
      · cases hscan.symm.trans hscan'
      · cases hscan.symm.trans hscan'
    · obtain ⟨c, hc, hc'⟩ := Text.blankFree_ne_nil_iff.1 hne
      rw [hblank c hc] at hc'
      cases hc'

/-- No expression that a block computes is empty. -/
theorem RunError.Fits.ne_empty {env : Env} {err : RunError} {b : Block} (h : err.Fits env b) :
    err ≠ .expression .emptyExpression := by
  rintro rfl
  cases b with
  | declare entries =>
    obtain ⟨_, _, _, -, -, -, herr⟩ := h
    cases herr
  | assign target literal =>
    obtain ⟨-, ⟨-, herr⟩ | ⟨-, -, herr⟩⟩ := h <;> cases herr
  | calculate target source =>
    rcases h with ⟨-, herr⟩ | ⟨-, -, herr⟩ | ⟨-, hsource, ⟨-, herr⟩ | ⟨-, e, he, herr⟩⟩ <;> cases herr
    exact hsource (calculate_eq_empty_iff.1 he)
  | cond lhs op rhs body =>
    rcases h with ⟨-, herr⟩ | ⟨-, -, herr⟩ | ⟨hlhs, hrhs, ⟨e, he, herr⟩ | ⟨-, e, he, herr⟩⟩ <;> cases herr
    · exact hlhs (calculate_eq_empty_iff.1 he)
    · exact hrhs (calculate_eq_empty_iff.1 he)

/-! ## Setting variables -/

section Setting

/-- The setter does with declared variables what `Env.set` does; what it does with others is left open. -/
def Setter.IsProper (set : Setter) : Prop := ∀ env x v, env.isDeclared x = true → set env x v = env.set x v

variable {set : Setter}

theorem execAssignWith_eq (h : set.IsProper) (target literal : String) (env : Env) :
    execAssignWith set target literal env = execAssign target literal env := by
  rw [execAssign, execAssignWith, execAssignWith]
  cases hdeclared : env.isDeclared (trim target) with
  | false => rfl
  | true =>
    cases Value.readLiteral? literal with
    | none => rfl
    | some v => simp only [h env (trim target) v hdeclared]

theorem execCalculateWith_eq (h : set.IsProper) (target expression : String) (env : Env) :
    execCalculateWith set target expression env = execCalculate target expression env := by
  rw [execCalculate, execCalculateWith, execCalculateWith]
  cases hdeclared : env.isDeclared (trim target) with
  | false => rfl
  | true =>
    have hset : (fun v => set env (trim target) v) = fun v => env.set (trim target) v :=
      funext fun v => h env (trim target) v hdeclared
    simp only [hset]

end Setting

/-! ## Failures of runs -/

/-- **The error of a failure fits the block that the failure names.** There is a block at the path, it gives the error
with the variables that the run leaves, and the error is not that of an empty expression. What setting a variable does
where the variable is not declared makes no difference to any block. -/
theorem failure_fits (bs : List Block) (env : Env) :
    (∀ p err, (run bs env).failure = some ⟨p, err⟩ →
      ∃ b, get? ⟨bs⟩ p = some b ∧ err.Fits (run bs env).env b ∧ err ≠ .expression .emptyExpression) ∧
    ∀ set : Setter, set.IsProper → ∀ target text env,
      execAssignWith set target text env = execAssign target text env ∧
        execCalculateWith set target text env = execCalculate target text env := by
  constructor
  · intro p err h
    obtain ⟨b, -, hget, heffect⟩ := exists_reaches h
    have hfits : err.Fits (run bs env).env b := Block.effect_eq_error_iff.1 heffect
    exact ⟨b, hget, hfits, hfits.ne_empty⟩
  · intro set hproper target text env
    exact ⟨execAssignWith_eq hproper target text env, execCalculateWith_eq hproper target text env⟩

/-- A program in which one of the pieces of a declaration is no name, inside a condition that holds. -/
def misnaming : List Block :=
  [.declare ["a, b"], .cond "a" .eq "b" [.assign "a" "5", .declare ["c, x1 ", ",2nd,d!"], .declare ["e"]]]

/-- Sets variables that are not declared too. -/
def Setter.lenient : Setter := fun env x v => .ok (env.storeAll [(x, v)])

theorem Setter.isProper_lenient : lenient.IsProper := fun _ _ v h => (Env.set_of_isDeclared h v).symm

theorem failure_fits_misnaming :
    (run misnaming .empty).failure = some ⟨[1, 1], .invalidIdentifier "2nd"⟩ ∧
      (RunError.invalidIdentifier "2nd").Fits (.ofList [("a", 5), ("b", 0)]) (.declare ["c, x1 ", ",2nd,d!"]) ∧
      execAssignWith .lenient "c" "1" .empty = .error (.undeclaredVariable "c") := by
  have hfailure : (run misnaming .empty).failure = some ⟨[1, 1], .invalidIdentifier "2nd"⟩ := by decide +kernel
  have henv : (run misnaming .empty).env = .ofList [("a", 5), ("b", 0)] := by decide +kernel
  have hassign : execAssign "c" "1" .empty = .error (.undeclaredVariable "c") := by decide +kernel
  obtain ⟨hfits, hset⟩ := failure_fits misnaming .empty
  obtain ⟨b, hget, hfits, -⟩ := hfits _ _ hfailure
  rw [henv] at hfits
  cases hget
  exact ⟨hfailure, hfits, (hset .lenient Setter.isProper_lenient "c" "1" .empty).1.trans hassign⟩

end BlockScript
