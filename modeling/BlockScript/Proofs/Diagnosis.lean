import BlockScript.Proofs.BlockErrors
import BlockScript.Proofs.ErrorOrigin
import BlockScript.Proofs.Spans
import BlockScript.Report

/-!
# What a diagnostic points at

A failure says which block failed and why, but not which expression of the block it was: a report finds that out again
by reading the tokens of both sides of a condition. This is right for an unexpected character, because computing raises
that error exactly if reading the tokens does, and because the left side is computed first (`failingExpression?_eq`).

So **a diagnostic has a source text exactly for an unexpected character, the text is the expression that failed, and the
label covers that character in it** (`annotate_points`).
-/

namespace BlockScript

open Text (Span isBlank)

/-! ## The expression that fails -/

/-- Computing an expression of the block in `env` fails with the error `e`. The right side of a condition is computed
only if the left side has a value. -/
inductive FailsOn (env : Env) (e : ExprError) : Block → String → Prop where
  | expression {target source : String} (h : calculate env source = .error e) :
      FailsOn env e (.calculate target source) source
  | left {lhs rhs : String} {op : Comparison} {body : List Block} (h : calculate env lhs = .error e) :
      FailsOn env e (.cond lhs op rhs body) lhs
  | right {lhs rhs : String} {op : Comparison} {body : List Block} {v : Value} (hlhs : calculate env lhs = .ok v)
      (h : calculate env rhs = .error e) : FailsOn env e (.cond lhs op rhs body) rhs

section FailsOn

variable {b : Block} {env : Env} {e : ExprError} {source : String}

theorem FailsOn.calculate_eq (h : FailsOn env e b source) : calculate env source = .error e := by
  cases h <;> assumption

/-- A block that fails because of an expression has one that fails. -/
theorem exists_failsOn (h : b.effect env = .error (.expression e)) : ∃ source, FailsOn env e b source := by
  have hfits := Block.effect_eq_error_iff.1 h
  cases b with
  | declare names =>
    obtain ⟨_, _, _, -, -, -, herr⟩ := hfits
    cases herr
  | assign target literal =>
    obtain ⟨-, ⟨-, herr⟩ | ⟨-, -, herr⟩⟩ := hfits <;> cases herr
  | calculate target source =>
    rcases hfits with ⟨-, herr⟩ | ⟨-, -, herr⟩ | ⟨-, -, ⟨-, herr⟩ | ⟨-, e', he', herr⟩⟩ <;> cases herr
    exact ⟨source, .expression he'⟩
  | cond lhs op rhs body =>
    rcases hfits with ⟨-, herr⟩ | ⟨-, -, herr⟩ | ⟨-, -, ⟨e', hlhs, herr⟩ | ⟨⟨v, hlhs⟩, e', hrhs, herr⟩⟩ <;> cases herr
    · exact ⟨lhs, .left hlhs⟩
    · exact ⟨rhs, .right hlhs hrhs⟩

end FailsOn

namespace Report

theorem failsToScan_iff {source : String} {e : ExprError} :
    failsToScan source e = true ↔ Token.scan source = .error e := by
  rw [failsToScan]
  cases Token.scan source <;> simp

variable {t : Program} {f : Failure} {b : Block} {env : Env} {e : ExprError} {source : String}

/-- The expression that is found for an error of reading is the one that failed. -/
theorem failingExpression?_eq (hget : t.get? f.path = some b) (herror : f.error = .expression e)
    (he : e.OfText) (hfails : FailsOn env e b source) : failingExpression? t f = some source := by
  rw [failingExpression?, herror]
  simp only
  rw [hget]
  have hscan : calculate env source = .error e → failsToScan source e = true :=
    fun h => failsToScan_iff.2 ((calculate_eq_error_iff he env source).1 h)
  cases hfails with
  | expression h => rfl
  | left h => simp [hscan h]
  | @right lhs _ op body v hlhs h =>
    have hlhs : failsToScan lhs e = false := by
      rw [Bool.eq_false_iff, ne_eq, failsToScan_iff, ← calculate_eq_error_iff he env, hlhs]
      nofun
    simp [hlhs, hscan h]

/-- Only an unexpected character has a place to point at. -/
theorem exists_unexpected_of_labels {err : RunError} (h : err.diagnostic.labels ≠ []) :
    ∃ text span, err = .expression (.unexpectedCharacter text span) := by
  cases err with
  | expression cause =>
    cases cause with
    | unexpectedCharacter text span => exact ⟨text, span, rfl⟩
    | _ => exact absurd rfl h
  | _ => exact absurd rfl h

theorem labels_ne_nil_of_source (h : (annotate t f).source.isSome) : f.error.diagnostic.labels ≠ [] := by
  intro hlabels
  rw [annotate, hlabels] at h
  split at h
  · contradiction
  · cases h

theorem annotate_unexpected {text : String} {span : Span}
    (herror : f.error = .expression (.unexpectedCharacter text span)) (hsource : failingExpression? t f = some source) :
    (annotate t f).source = some source ∧ (annotate t f).diagnostic.labels = [⟨span, "not part of any token"⟩] ∧
      (annotate t f).diagnostic.message =
        f.title ++ ": " ++ ("Unexpected character `" ++ text ++ "` in expression") := by
  rw [annotate, hsource, herror]
  exact ⟨rfl, rfl, rfl⟩

/-- **A diagnostic points at the text that failed.** It has a source text exactly for an unexpected character. The text
is then the expression of the failing block that has no value, and its one label covers the character that the message
quotes. -/
theorem annotate_points (t : Program) (env : Env) (f : Failure) (h : (run t.blocks env).failure = some f) :
    ((annotate t f).source.isSome ↔ ∃ text span, f.error = .expression (.unexpectedCharacter text span)) ∧
    ∀ text span, f.error = .expression (.unexpectedCharacter text span) →
      ∃ b source c, t.get? f.path = some b ∧
        FailsOn (run t.blocks env).env (.unexpectedCharacter text span) b source ∧
        (annotate t f).source = some source ∧
        (annotate t f).diagnostic.labels = [⟨span, "not part of any token"⟩] ∧
        (annotate t f).diagnostic.message = f.title ++ ": " ++ ("Unexpected character `" ++ text ++ "` in expression") ∧
        span.IsIn source ∧ span.bytes source = text.toByteArray ∧
        text = String.singleton c ∧ isBlank c = false := by
  obtain ⟨b, -, hget, heffect⟩ := exists_reaches h
  have hpoints : ∀ text span, f.error = .expression (.unexpectedCharacter text span) →
      ∃ source, FailsOn (run t.blocks env).env (.unexpectedCharacter text span) b source ∧
        failingExpression? t f = some source := by
    intro text span herror
    rw [herror] at heffect
    obtain ⟨source, hfails⟩ := exists_failsOn heffect
    exact ⟨source, hfails, failingExpression?_eq hget herror trivial hfails⟩
  refine ⟨⟨?_, ?_⟩, ?_⟩
  · intro hsome
    exact exists_unexpected_of_labels (labels_ne_nil_of_source hsome)
  · rintro ⟨text, span, herror⟩
    obtain ⟨source, -, hsource⟩ := hpoints text span herror
    rw [(annotate_unexpected herror hsource).1]
    rfl
  · intro text span herror
    obtain ⟨source, hfails, hsource⟩ := hpoints text span herror
    obtain ⟨hannotate, hlabels, hmessage⟩ := annotate_unexpected herror hsource
    have hread : ExprError.OfText (.unexpectedCharacter text span) := trivial
    obtain ⟨c, before, after, htext, hblank, rfl, rfl⟩ :=
      Token.exists_of_scan_unexpected ((calculate_eq_error_iff hread _ source).1 hfails.calculate_eq)
    exact ⟨b, _, c, hget, hfails, hannotate, hlabels, hmessage, Span.isIn_behind before text after,
      Span.bytes_behind before text after, htext, hblank⟩

/-- A program that fails on the right side of a condition, at a character of two bytes behind a blank of three. -/
def misspelt : Program :=
  ⟨[.declare ["x"], .cond "1" .lt "2" [.cond "x" .eq "(x +\u3000é) * 2" []]]⟩

theorem annotate_points_misspelt :
    (run misspelt.blocks .empty).failure = some ⟨[1, 0], .expression (.unexpectedCharacter "é" ⟨7, 9⟩)⟩ ∧
      ∃ source, (annotate misspelt ⟨[1, 0], .expression (.unexpectedCharacter "é" ⟨7, 9⟩)⟩).source = some source ∧
        (Span.mk 7 9).bytes source = "é".toByteArray := by
  have hfailure : (run misspelt.blocks .empty).failure =
      some ⟨[1, 0], .expression (.unexpectedCharacter "é" ⟨7, 9⟩)⟩ := by decide +kernel
  obtain ⟨b, source, c, -, -, hsource, -, -, -, hbytes, -⟩ :=
    (annotate_points misspelt .empty _ hfailure).2 "é" ⟨7, 9⟩ rfl
  exact ⟨hfailure, source, hsource, hbytes⟩

end Report

end BlockScript
