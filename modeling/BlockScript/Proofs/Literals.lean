import BlockScript.Proofs.ExactEvaluation
import BlockScript.Proofs.MaximalMunch
import BlockScript.Proofs.PhraseValue
import BlockScript.Run.Exec

/-!
# Integer literals

The literal of an assignment is read digit by digit into a value, from the first digit on and downwards behind a minus.
In an expression the same text is two tokens: the digits are read as one number, which may be too large to be a value,
and the minus is applied to it afterwards, but for the magnitude of the smallest value, which takes the minus up. Both
come to the same (`Literal.readLiteral?_text`, `Literal.calculate_text`): the value that holds the integer, if there is
one. So **a literal means the same in an assignment and in an expression** (`literals_agree`).
-/

namespace BlockScript

open Text (isBlank blankFree isDigits natural trim)
open ExprError (orOverflow)

/-! ## Literals and their integers -/

/-- One or more digits, with or without a minus in front. -/
structure Literal where
  negative : Bool
  digits : List Char
  isDigits_digits : isDigits digits = true

namespace Literal

def chars (l : Literal) : List Char := if l.negative then '-' :: l.digits else l.digits

def text (l : Literal) : String := .ofList l.chars

/-- The integer that a literal stands for. -/
def integer (l : Literal) : Int := signed l.negative (natural l.digits)

/-- The literals are the texts that an assignment takes for literals. -/
theorem isLiteral_iff {cs : List Char} : Value.isLiteral cs = true ↔ ∃ l : Literal, l.chars = cs := by
  constructor
  · intro h
    unfold Value.isLiteral at h
    split at h
    · exact ⟨⟨true, _, h⟩, rfl⟩
    · exact ⟨⟨false, _, h⟩, rfl⟩
  · rintro ⟨⟨negative, digits, h⟩, rfl⟩
    cases negative with
    | true => exact h
    | false =>
      unfold Value.isLiteral
      split
      · rename_i ds heq
        obtain rfl : digits = '-' :: ds := heq
        exact absurd h (by simp [isDigits])
      · exact h

end Literal

/-! ## Reading the literal of an assignment -/

namespace Literal

theorem read_chars (l : Literal) : Value.read l.chars = Value.readDigits l.negative 0 l.digits := by
  unfold chars
  cases l.negative with
  | true =>
    obtain ⟨c, cs, hdigits, -⟩ := Text.exists_of_isDigits l.isDigits_digits
    rw [hdigits]
    rfl
  | false => exact Value.read_of_isDigits l.isDigits_digits

/-- An assignment finds the value that holds the integer of its literal, if there is one. -/
theorem readLiteral?_text (l : Literal) : Value.readLiteral? l.text = Value.ofInt? l.integer := by
  rw [Value.readLiteral?, text, String.toList_ofList, if_pos (isLiteral_iff.2 ⟨l, rfl⟩), read_chars, integer, natural]
  refine Value.toOption_readDigits (Text.all_of_isDigits l.isDigits_digits) ?_
  cases l.negative <;> rfl

end Literal

/-! ## Computing a literal -/

/-- The value of a text that spells a phrase is that of the phrase's own tokens. -/
theorem Phrase.calculate_spelling (e : Phrase .sum) (env : Env) {source : String}
    (h : blankFree source.toList = e.spelling) :
    calculate env source = Postfix.ofTokens env e.tokens >>= Postfix.evaluate := by
  obtain ⟨ts, hscan, hts⟩ := e.scan_spelling h
  have hlexemes : ts.map Token.lexeme = e.tokens.map Token.lexeme := hts.trans (Lexeme.map_lexeme_token _).symm
  rw [calculate, hscan, ← Postfix.ofTokens_congr env hlexemes]
  rfl

namespace Literal

variable {env : Env}

/-- The digits of a literal as a numeral. -/
def numeral (l : Literal) : Numeral := ⟨l.digits, [], l.isDigits_digits, rfl⟩

/-- A literal as a phrase. -/
def phrase (l : Literal) : Phrase .sum :=
  .sum (.product (if l.negative then .neg (.unary (.number l.numeral)) else .unary (.number l.numeral)))

theorem integer?_numeral (l : Literal) : l.numeral.integer? = some (natural l.digits) := rfl

theorem spelling_phrase (l : Literal) : l.phrase.spelling = l.chars := by
  cases hneg : l.negative <;>
    simp [phrase, chars, hneg, Phrase.spelling, Phrase.lexemes, Lexeme.arith, BinaryOp.symbol, numeral, Numeral.text,
      Numeral.tail]

theorem blankFree_text (l : Literal) : blankFree l.text.toList = l.phrase.spelling := by
  have hdigits : ∀ c ∈ l.digits, isBlank c = false := fun c hc =>
    Lexeme.isBlank_eq_false_of_isDigit (List.all_eq_true.1 (Text.all_of_isDigits l.isDigits_digits) c hc)
  have hminus : isBlank '-' = false := by decide
  rw [spelling_phrase, text, String.toList_ofList]
  apply Text.blankFree_eq_self
  intro c hc
  unfold chars at hc
  cases hneg : l.negative <;> simp [hneg] at hc
  · exact hdigits c hc
  · rcases hc with rfl | hc
    · exact hminus
    · exact hdigits c hc

theorem overflows_numeral (l : Literal) :
    l.numeral.overflows = decide (9223372036854775808 ≤ natural l.digits) := by
  rw [Bool.eq_iff_iff, Numeral.overflows_iff l.integer?_numeral, decide_eq_true_eq]

theorem isSmallestMagnitude_numeral (l : Literal) :
    (Phrase.unary (.number l.numeral)).isSmallestMagnitude = decide (natural l.digits = 9223372036854775808) := by
  rw [Bool.eq_iff_iff, decide_eq_true_eq, Phrase.isSmallestMagnitude, Phrase.isSmallestMagnitude, l.integer?_numeral]
  simp

/-- A literal has a bad operand exactly if its integer is out of range. -/
theorem fault?_phrase (l : Literal) (env : Env) :
    l.phrase.fault? env = if Value.Fits l.integer then none else some .overflow := by
  have hoverflows := l.overflows_numeral
  have hsmallest := l.isSmallestMagnitude_numeral
  unfold phrase integer signed
  cases l.negative with
  | false =>
    simp only [Bool.false_eq_true, if_false, Phrase.fault?, hoverflows, decide_eq_true_eq]
    by_cases hfits : Value.Fits (natural l.digits : Int)
    · rw [if_pos hfits, if_neg (by omega)]
    · rw [if_neg hfits, if_pos (by omega)]
  | true =>
    simp only [if_true, Phrase.fault?, hsmallest, hoverflows, decide_eq_true_eq]
    by_cases hfits : Value.Fits (-(natural l.digits : Int))
    · rw [if_pos hfits]
      split
      · rfl
      · rw [if_neg (by omega)]
    · rw [if_neg hfits, if_neg (by omega), if_pos (by omega)]

theorem value_phrase (l : Literal) (h : Value.Fits l.integer) : l.phrase.value env = .ok l.integer := by
  have hsmallest := l.isSmallestMagnitude_numeral
  revert h
  unfold phrase integer signed
  cases l.negative with
  | false => exact fun _ => rfl
  | true =>
    intro h
    simp only [if_true, Phrase.value, hsmallest, decide_eq_true_eq]
    split
    · rename_i hk
      rw [hk]
      rfl
    · exact if_pos h

/-- An expression that is a literal has the value that holds its integer, and overflows if there is none. -/
theorem calculate_text (l : Literal) (env : Env) : calculate env l.text = orOverflow (Value.ofInt? l.integer) := by
  rw [l.phrase.calculate_spelling env l.blankFree_text]
  have hfault := l.fault?_phrase env
  cases hv : Value.ofInt? l.integer with
  | none =>
    rw [if_neg (Value.ofInt?_eq_none_iff.1 hv)] at hfault
    have hfeed := l.phrase.feed_of_fault? (Phrase.settled_nil _) hfault
    rw [Postfix.ofTokens, Postfix.convert_eq, Postfix.Yard.start, hfeed]
    rfl
  | some v =>
    have hinteger := Value.ofInt?_eq_some_iff.1 hv
    have hfits : Value.Fits l.integer := hinteger ▸ Value.fits_toInt v
    rw [if_pos hfits] at hfault
    rw [(l.phrase.reads (Phrase.settled_nil _) hfault).ofTokens_eq]
    change Postfix.evaluate (l.phrase.tree env).postorder = .ok v
    rw [Postfix.Tree.evaluate_postorder, eq_ok_iff_map_toInt, l.phrase.map_toInt_eval_tree hfault,
      l.value_phrase hfits, hinteger]

/-! ## The text of a value -/

/-- The literal that an integer is written with. -/
def ofInt (z : Int) : Literal where
  negative := decide (z < 0)
  digits := Nat.toDigits 10 z.natAbs
  isDigits_digits := Text.isDigits_toDigits z.natAbs

theorem integer_ofInt (z : Int) : (ofInt z).integer = z := by
  have hmagnitude : natural (ofInt z).digits = z.natAbs := Nat.ofDigitChars_ten_toDigits
  rw [integer, hmagnitude]
  simp only [signed, ofInt, decide_eq_true_eq]
  split <;> omega

theorem text_ofInt (z : Int) : (ofInt z).text = toString z := by
  rw [Int.toString_eq_repr]
  cases z with
  | ofNat n => exact Nat.repr_eq_ofList_toDigits.symm
  | negSucc n =>
    have hneg : (ofInt (.negSucc n)).negative = true := decide_eq_true (Int.negSucc_lt_zero n)
    rw [text, chars, if_pos hneg]
    change String.ofList ('-' :: Nat.toDigits 10 (n + 1)) = "-" ++ (n + 1).repr
    rw [Nat.repr_eq_ofList_toDigits, ← String.toList_inj]
    simp

end Literal

/-! ## Assignments and expressions -/

/-- What an assignment makes of its literal: the value it stores, or the error it gives. -/
def literalValue (literal : String) : Except RunError Value :=
  match Value.readLiteral? literal with
  | some v => .ok v
  | none => .error (.notAnInteger literal)

/-- Once its variable is found to be declared, an assignment stores what it makes of its literal. -/
theorem execAssign_of_isDeclared {env : Env} {target : String} (htarget : trim target ≠ "")
    (hdeclared : env.isDeclared (trim target) = true) (literal : String) :
    execAssign target literal env = literalValue literal >>= fun v => env.set (trim target) v := by
  rw [execAssign, execAssignWith, literalValue]
  cases Value.readLiteral? literal <;> simp [htarget, hdeclared] <;> rfl

/-- **A literal means the same in an assignment and in an expression.** Both find the value that holds its integer; if
there is none, the assignment takes it for no integer and the expression overflows. An assignment takes no other text
for an integer. The text of a value is a literal that has this value in both places. -/
theorem literals_agree (env : Env) :
    (∀ l : Literal,
      (Value.Fits l.integer →
        ∃ v : Value, v.toInt = l.integer ∧ literalValue l.text = .ok v ∧ calculate env l.text = .ok v) ∧
      (¬ Value.Fits l.integer →
        literalValue l.text = .error (.notAnInteger l.text) ∧ calculate env l.text = .error .overflow)) ∧
    (∀ s : String, (∀ l : Literal, l.text ≠ s) → literalValue s = .error (.notAnInteger s)) ∧
    (∀ v : Value, literalValue v.text = .ok v ∧ calculate env v.text = .ok v) ∧
    ∀ target literal, trim target ≠ "" → env.isDeclared (trim target) = true →
      execAssign target literal env = literalValue literal >>= fun v => env.set (trim target) v := by
  have hvalue : ∀ (l : Literal) (v : Value), v.toInt = l.integer →
      literalValue l.text = .ok v ∧ calculate env l.text = .ok v := by
    intro l v hv
    have hsome : Value.ofInt? l.integer = some v := Value.ofInt?_eq_some_iff.2 hv
    rw [literalValue, l.readLiteral?_text, l.calculate_text, hsome]
    exact ⟨rfl, rfl⟩
  refine ⟨fun l => ⟨fun hfits => ?_, fun hfits => ?_⟩, fun s hs => ?_, fun v => ?_, fun target literal => ?_⟩
  · obtain ⟨v, hv⟩ := Value.exists_toInt_eq hfits
    exact ⟨v, hv, hvalue l v hv⟩
  · rw [literalValue, l.readLiteral?_text, l.calculate_text, Value.ofInt?_eq_none_iff.2 hfits]
    exact ⟨rfl, rfl⟩
  · have hshape : ¬ Value.isLiteral s.toList = true := by
      rw [Literal.isLiteral_iff]
      rintro ⟨l, hl⟩
      exact hs l (by rw [Literal.text, hl, String.ofList_toList])
    rw [literalValue, Value.readLiteral?, if_neg hshape]
  · have hv := hvalue (.ofInt v.toInt) v (Literal.integer_ofInt v.toInt).symm
    rw [Literal.text_ofInt] at hv
    exact hv
  · exact fun htarget hdeclared => execAssign_of_isDeclared htarget hdeclared literal

/-- The smallest value with a zero in front of its digits, and the number next to the largest value. -/
theorem literals_agree_limits :
    literalValue "-09223372036854775808" = .ok Value.smallest ∧
      calculate .empty "-09223372036854775808" = .ok Value.smallest ∧
      literalValue "9223372036854775808" = .error (.notAnInteger "9223372036854775808") ∧
      calculate .empty "9223372036854775808" = .error .overflow ∧
      literalValue "+1" = .error (.notAnInteger "+1") := by
  obtain ⟨hliteral, hother, -⟩ := literals_agree .empty
  obtain ⟨v, hv, hread, hvalue⟩ := (hliteral ⟨true, "09223372036854775808".toList, by decide⟩).1 (by decide)
  obtain rfl : v = Value.smallest := Int64.toInt_inj.1 hv
  have hlarge := (hliteral ⟨false, "9223372036854775808".toList, by decide⟩).2 (by decide)
  refine ⟨hread, hvalue, hlarge.1, hlarge.2, hother "+1" fun l hl => ?_⟩
  have hplus : Value.isLiteral "+1".toList = true :=
    Literal.isLiteral_iff.2 ⟨l, by rw [← hl, Literal.text, String.toList_ofList]⟩
  exact absurd hplus (by decide)

end BlockScript
