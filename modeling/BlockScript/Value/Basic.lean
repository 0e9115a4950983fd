/-!
# Values

A variable holds a signed 64-bit word, an integer that is at least -9223372036854775808 and less than
9223372036854775808, which is 2 ^ 63. Arithmetic is exact: each operation computes the integer it stands for and gives
no value when that integer does not fit, so nothing ever wraps.
-/

namespace BlockScript

/-- The contents of a variable. -/
abbrev Value := Int64

namespace Value

/-- Whether an integer can be stored. -/
abbrev Fits (n : Int) : Prop := -9223372036854775808 ≤ n ∧ n < 9223372036854775808

/-- The word that holds `n`, if there is one. -/
def ofInt? (n : Int) : Option Value :=
  if Fits n then some (Int64.ofInt n) else none

theorem fits_toInt (v : Value) : Fits v.toInt := ⟨v.le_toInt, v.toInt_lt⟩

/-- Storing an integer keeps it: no other one is ever stored in its place. -/
theorem ofInt?_eq_some_iff {n : Int} {v : Value} : ofInt? n = some v ↔ v.toInt = n := by
  constructor
  · intro h
    unfold ofInt? at h
    split at h
    · next hn =>
      cases h
      exact Int64.toInt_ofInt_of_le hn.1 hn.2
    · cases h
  · intro h
    subst h
    rw [ofInt?, if_pos (fits_toInt v), Int64.ofInt_toInt]

theorem ofInt?_eq_none_iff {n : Int} : ofInt? n = none ↔ ¬ Fits n := by
  unfold ofInt?
  split
  · next hn => exact ⟨fun h => (nomatch h), fun h => absurd hn h⟩
  · next hn => exact ⟨fun _ => hn, fun _ => rfl⟩

@[simp]
theorem ofInt?_toInt (v : Value) : ofInt? v.toInt = some v := ofInt?_eq_some_iff.2 rfl

/-- The smallest value, the only one whose magnitude is not itself a value. -/
def smallest : Value := Int64.minValue

/-- The magnitude of the smallest value. -/
def smallestMagnitude : Nat := 9223372036854775808

/-- The word that holds a natural number, if there is one. -/
def ofNat? (n : Nat) : Option Value :=
  if n < smallestMagnitude then some (Int64.ofNat n) else none

theorem ofNat?_eq_ofInt? (n : Nat) : ofNat? n = ofInt? n := by
  by_cases h : n < smallestMagnitude
  · have hn : Fits n := ⟨by omega, by simp only [smallestMagnitude] at h; omega⟩
    rw [ofNat?, ofInt?, if_pos h, if_pos hn]
    rfl
  · have hn : ¬ Fits n := fun hf => h (by simp only [smallestMagnitude]; omega)
    rw [ofNat?, ofInt?, if_neg h, if_neg hn]

def neg? (a : Value) : Option Value := ofInt? (-a.toInt)

def add? (a b : Value) : Option Value := ofInt? (a.toInt + b.toInt)

def sub? (a b : Value) : Option Value := ofInt? (a.toInt - b.toInt)

def mul? (a b : Value) : Option Value := ofInt? (a.toInt * b.toInt)

/-- The quotient, cut toward zero. -/
def div? (a b : Value) : Option Value :=
  if b = 0 then none else ofInt? (a.toInt.tdiv b.toInt)

/-- The remainder that belongs to `div?`, with the sign of the dividend. Where the quotient does not fit there is no
remainder either. -/
def rem? (a b : Value) : Option Value := do
  let _ ← div? a b
  ofInt? (a.toInt.tmod b.toInt)

/-- The decimal text of a value. -/
def text (v : Value) : String := toString v.toInt

end Value

end BlockScript
