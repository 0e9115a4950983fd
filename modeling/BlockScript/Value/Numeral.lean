import BlockScript.Text.Decimal
import BlockScript.Value.Basic

/-!
# Reading values

`Value.read` reads a signed numeral and says what is wrong with one that cannot be read: the leftmost fault is the one
reported, and a digit that takes the number out of range is a fault at that digit. `Value.readLiteral?` reads the
literal of an assignment, in which no plus sign is allowed.
-/

namespace BlockScript

/-- An integer of a given magnitude. -/
def signed (negative : Bool) (n : Nat) : Int := if negative then -n else n

namespace Value

/-- What keeps a text from being read as a value. -/
inductive Fault where
  | empty
  | invalidDigit
  | tooLarge
  | tooSmall
deriving DecidableEq

/-- The wording of a fault. -/
def Fault.message : Fault → String
  | empty => "cannot parse integer from empty string"
  | invalidDigit => "invalid digit found in string"
  | tooLarge => "number too large to fit in target type"
  | tooSmall => "number too small to fit in target type"

/-- Reads further digits onto `v`; a negative numeral counts its digits downwards. -/
def readDigits (negative : Bool) : Value → List Char → Except Fault Value
  | v, [] => .ok v
  | v, c :: cs =>
    if c.isDigit then
      match ofInt? (10 * v.toInt + signed negative (Text.natural [c])) with
      | some w => readDigits negative w cs
      | none => .error (if negative then .tooSmall else .tooLarge)
    else .error .invalidDigit

/-- Reads a numeral: an optional sign and at least one digit. -/
def read : List Char → Except Fault Value
  | [] => .error .empty
  | ['-'] | ['+'] => .error .invalidDigit
  | '-' :: cs => readDigits true 0 cs
  | '+' :: cs => readDigits false 0 cs
  | cs => readDigits false 0 cs

/-- Whether the characters are an integer literal: digits with at most a minus in front. -/
def isLiteral : List Char → Bool
  | '-' :: cs => Text.isDigits cs
  | cs => Text.isDigits cs

/-- Reads an integer literal in the range of values. -/
def readLiteral? (s : String) : Option Value :=
  if isLiteral s.toList then (read s.toList).toOption else none

/-! ## Digits -/

section Digits

variable {negative : Bool} {m n : Nat} {cs : List Char}

/-- Further digits do not make a number smaller. -/
theorem le_ofDigitChars (cs : List Char) (m : Nat) : m ≤ Nat.ofDigitChars 10 cs m := by
  induction cs generalizing m with
  | nil => exact Nat.le_refl m
  | cons c cs ih =>
    rw [Nat.ofDigitChars_cons]
    have h := ih (10 * m + (c.toNat - '0'.toNat))
    omega

theorem not_fits_signed_of_le (h : m ≤ n) (hm : ¬ Fits (signed negative m)) : ¬ Fits (signed negative n) := by
  cases negative <;> simp [signed] at hm ⊢ <;> omega

/-- Reading digits onto a value gives the value that holds the whole number, if there is one. -/
theorem toOption_readDigits {v : Value} (hcs : cs.all Char.isDigit = true) (hv : v.toInt = signed negative m) :
    (readDigits negative v cs).toOption = ofInt? (signed negative (Nat.ofDigitChars 10 cs m)) := by
  induction cs generalizing v m with
  | nil =>
    rw [Nat.ofDigitChars_nil, ← hv, ofInt?_toInt]
    rfl
  | cons c cs ih =>
    obtain ⟨hc, hcs⟩ : c.isDigit = true ∧ cs.all Char.isDigit = true := by simpa using hcs
    have hnext : 10 * v.toInt + signed negative (Text.natural [c]) =
        signed negative (10 * m + (c.toNat - '0'.toNat)) := by
      rw [Text.natural, Nat.ofDigitChars_cons, Nat.ofDigitChars_nil, hv]
      cases negative with
      | false => simp [signed]
      | true =>
        simp [signed]
        omega
    rw [readDigits, if_pos hc, Nat.ofDigitChars_cons]
    simp only [hnext]
    cases hw : ofInt? (signed negative (10 * m + (c.toNat - '0'.toNat))) with
    | some w => exact ih hcs (ofInt?_eq_some_iff.1 hw)
    | none =>
      -- the number read so far is out of range, and it does not come back
      have hfits := not_fits_signed_of_le (le_ofDigitChars cs _) (ofInt?_eq_none_iff.1 hw)
      rw [ofInt?_eq_none_iff.2 hfits]
      rfl

theorem read_of_isDigits (h : Text.isDigits cs = true) : read cs = readDigits false 0 cs := by
  obtain ⟨c, cs, rfl, hc, -⟩ := Text.exists_of_isDigits h
  have hminus : c ≠ '-' := by rintro rfl; exact absurd hc (by decide)
  have hplus : c ≠ '+' := by rintro rfl; exact absurd hc (by decide)
  unfold read
  simp [hminus, hplus]

/-- Digits are read as the value that holds their number, if there is one. -/
theorem toOption_read_of_isDigits (h : Text.isDigits cs = true) : (read cs).toOption = ofNat? (Text.natural cs) := by
  have hzero : (0 : Value).toInt = signed false 0 := rfl
  rw [read_of_isDigits h, toOption_readDigits (Text.all_of_isDigits h) hzero, ofNat?_eq_ofInt?]
  rfl

end Digits

end Value

end BlockScript
