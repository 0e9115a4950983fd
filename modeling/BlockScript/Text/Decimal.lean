/-!
# Decimal numerals

`natural` is the number a string of digits stands for, whatever its length.
-/

namespace BlockScript.Text

/-- The number that a string of decimal digits stands for. -/
def natural (digits : List Char) : Nat := Nat.ofDigitChars 10 digits 0

/-- Whether the characters are one or more digits. -/
def isDigits (cs : List Char) : Bool := !cs.isEmpty && cs.all Char.isDigit

theorem all_of_isDigits {cs : List Char} (h : isDigits cs = true) : cs.all Char.isDigit = true := by
  rw [isDigits, Bool.and_eq_true] at h
  exact h.2

theorem exists_of_isDigits {cs : List Char} (h : isDigits cs = true) :
    ∃ d ds, cs = d :: ds ∧ d.isDigit = true ∧ ds.all Char.isDigit = true := by
  cases cs with
  | nil => cases h
  | cons d ds =>
    have hall := all_of_isDigits h
    rw [List.all_cons, Bool.and_eq_true] at hall
    exact ⟨d, ds, rfl, hall⟩

theorem isDigits_toDigits (n : Nat) : isDigits (Nat.toDigits 10 n) = true := by
  have hall : ∀ c ∈ Nat.toDigits 10 n, c.isDigit = true := fun c hc =>
    Nat.isDigit_of_mem_toDigits (by decide) (by decide) hc
  simpa [isDigits, Nat.toDigits_ne_nil] using hall

theorem isDigits_toString (n : Nat) : isDigits (toString n).toList = true := by
  rw [Nat.toString_eq_repr, Nat.toList_repr]
  exact isDigits_toDigits n

/-- A number is written with the digits that stand for it. -/
theorem natural_toString (n : Nat) : natural (toString n).toList = n := by
  rw [Nat.toString_eq_repr, Nat.toList_repr]
  exact Nat.ofDigitChars_ten_toDigits

/-- The number of a numeral without a minus: one or more digits, with at most a plus in front. -/
def unsigned? : List Char → Option Nat
  | '+' :: cs => if isDigits cs then some (natural cs) else none
  | cs => if isDigits cs then some (natural cs) else none

theorem unsigned?_of_isDigits {cs : List Char} (h : isDigits cs = true) : unsigned? cs = some (natural cs) := by
  unfold unsigned?
  split
  · exact absurd h (by simp [isDigits])
  · exact if_pos h

/-- The length of the fraction at the front: a point and at least one digit, or nothing. -/
def fractionLength : List Char → Nat
  | '.' :: cs =>
    match (cs.takeWhile Char.isDigit).length with
    | 0 => 0
    | n + 1 => n + 2
  | _ => 0

end BlockScript.Text
