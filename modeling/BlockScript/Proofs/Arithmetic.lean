import BlockScript.Expr.Calculate

/-!
# Operators over the integers

The operators on values against the operators on unbounded integers. `BinaryOp.checked` is the exact result of an
operator where it is a value, with the errors that take its place elsewhere; `BinaryOp.apply` computes just that
(`BinaryOp.toInt_apply`), and negation likewise (`Value.toInt_neg?`).
-/

namespace BlockScript

open ExprError (orOverflow)

namespace BinaryOp

/-- The integer that an operator makes of two integers. Division cuts toward zero, and a remainder has the sign of the
dividend. -/
def exact : BinaryOp → Int → Int → Int
  | add, a, b => a + b
  | sub, a, b => a - b
  | mul, a, b => a * b
  | div, a, b => a.tdiv b
  | rem, a, b => a.tmod b

def divides : BinaryOp → Bool
  | div | rem => true
  | _ => false

/-- The exact result where it is a value. The remainder of the smallest value by -1 counts as out of range. -/
def checked (op : BinaryOp) (a b : Int) : Except ExprError Int :=
  if op.divides ∧ b = 0 then .error .divisionByZero
  else if ¬ Value.Fits (op.exact a b) ∨ (op = .rem ∧ a = -9223372036854775808 ∧ b = -1) then .error .overflow
  else .ok (op.exact a b)

end BinaryOp

/-! ## The range of values -/

namespace Value

/-- Storing an integer gives it back, or overflows. -/
theorem toInt_orOverflow (n : Int) :
    (orOverflow (ofInt? n)).map Int64.toInt = if Fits n then .ok n else .error .overflow := by
  by_cases h : Fits n
  · have hv : (Int64.ofInt n).toInt = n := Int64.toInt_ofInt_of_le h.1 h.2
    simp only [ofInt?, if_pos h, orOverflow, Except.map, hv]
  · simp only [ofInt?, if_neg h, orOverflow, Except.map]

theorem toInt_neg? (a : Value) :
    (orOverflow (neg? a)).map Int64.toInt = if Fits (-a.toInt) then .ok (-a.toInt) else .error .overflow :=
  toInt_orOverflow _

/-- A quotient of values is a value, unless it is the negated smallest one. -/
theorem fits_tdiv_iff {a b : Int} (ha : Fits a) : Fits (a.tdiv b) ↔ ¬ (a = -9223372036854775808 ∧ b = -1) := by
  constructor
  · rintro h ⟨rfl, rfl⟩
    exact absurd h (by decide)
  · intro h
    have hle := Int.natAbs_tdiv_le_natAbs a b
    have habs : (a.tdiv b).natAbs = a.natAbs / b.natAbs := Int.natAbs_tdiv a b
    obtain ⟨h₁, h₂⟩ := ha
    by_cases hq : a.tdiv b = 9223372036854775808
    · -- The quotient has the magnitude of the dividend, so the divisor is 1 or -1.
      exfalso
      have hna : a.natAbs = 9223372036854775808 := by rw [hq] at hle; omega
      have hb : b.natAbs = 1 := by
        rw [hq, hna] at habs
        have hpos : 0 < b.natAbs := by
          rcases Nat.eq_zero_or_pos b.natAbs with h0 | h0
          · rw [h0] at habs; simp at habs
          · exact h0
        have hmul := Nat.div_mul_le_self (9223372036854775808) b.natAbs
        rw [← habs] at hmul
        have : Int.natAbs (9223372036854775808) = 9223372036854775808 := rfl
        rw [this] at hmul
        omega
      rcases Int.natAbs_eq b with hb' | hb'
      · rw [hb'] at hq; simp [hb] at hq; omega
      · exact h ⟨by omega, by omega⟩
    · constructor <;> omega

theorem fits_tmod {a b : Int} (hb : Fits b) (h0 : b ≠ 0) : Fits (a.tmod b) := by
  have habs : (a.tmod b).natAbs = a.natAbs % b.natAbs := Int.natAbs_tmod a b
  have hlt : a.natAbs % b.natAbs < b.natAbs := Nat.mod_lt _ (by omega)
  obtain ⟨h₁, h₂⟩ := hb
  constructor <;> omega

end Value

/-! ## Operators -/

namespace BinaryOp

/-- Only a remainder can be out of range although its exact result is a value. -/
theorem checked_of_ne_rem {op : BinaryOp} (hop : op ≠ .rem) {a b : Int} (hb : op.divides = true → b ≠ 0) :
    op.checked a b = if Value.Fits (op.exact a b) then .ok (op.exact a b) else .error .overflow := by
  rw [checked, if_neg fun h => hb h.1 h.2]
  by_cases h : Value.Fits (op.exact a b)
  · rw [if_pos h, if_neg]
    rintro (hf | ⟨hr, -⟩)
    · exact hf h
    · exact hop hr
  · rw [if_neg h, if_pos (Or.inl h)]

theorem toInt_rem (a b : Value) (hb : b.toInt ≠ 0) :
    (orOverflow (Value.rem? a b)).map Int64.toInt = checked .rem a.toInt b.toInt := by
  have h0 : b ≠ 0 := fun h => hb (by rw [h]; rfl)
  have hm : Value.Fits (a.toInt.tmod b.toInt) := Value.fits_tmod (Value.fits_toInt b) hb
  have hq := Value.fits_tdiv_iff (b := b.toInt) (Value.fits_toInt a)
  by_cases h : a.toInt = -9223372036854775808 ∧ b.toInt = -1
  · have hn : Value.ofInt? (a.toInt.tdiv b.toInt) = none := Value.ofInt?_eq_none_iff.2 (fun hf => hq.1 hf h)
    have hr : Value.rem? a b = none := by simp [Value.rem?, Value.div?, h0, hn]
    rw [hr, checked, if_neg (by simp [hb]), if_pos (Or.inr ⟨rfl, h⟩)]
    rfl
  · have hs : Value.ofInt? (a.toInt.tdiv b.toInt) = some (Int64.ofInt (a.toInt.tdiv b.toInt)) := by
      rw [Value.ofInt?, if_pos (hq.2 h)]
    have hr : Value.rem? a b = Value.ofInt? (a.toInt.tmod b.toInt) := by simp [Value.rem?, Value.div?, h0, hs]
    rw [hr, Value.toInt_orOverflow, if_pos hm, checked, if_neg (by simp [hb]), if_neg]
    · rfl
    · rintro (hf | ⟨-, hf⟩)
      · exact hf hm
      · exact h hf

/-- **Operators are exact**: joining two values gives the checked result of joining the integers they hold. -/
theorem toInt_apply (op : BinaryOp) (a b : Value) :
    (op.apply a b).map Int64.toInt = op.checked a.toInt b.toInt := by
  have hz : b = 0 ↔ b.toInt = 0 := by
    rw [← Int64.toInt_inj]; rfl
  cases op with
  | add =>
    rw [checked_of_ne_rem (by decide) (by simp [divides])]
    exact Value.toInt_orOverflow _
  | sub =>
    rw [checked_of_ne_rem (by decide) (by simp [divides])]
    exact Value.toInt_orOverflow _
  | mul =>
    rw [checked_of_ne_rem (by decide) (by simp [divides])]
    exact Value.toInt_orOverflow _
  | div =>
    by_cases hb : b = 0
    · simp [apply, hb, checked, divides, Except.map]
    · rw [apply, if_neg hb, Value.div?, if_neg hb, checked_of_ne_rem (by decide) (fun _ h => hb (hz.2 h))]
      exact Value.toInt_orOverflow _
  | rem =>
    by_cases hb : b = 0
    · simp [apply, hb, checked, divides, Except.map]
    · rw [apply, if_neg hb]
      exact toInt_rem a b (fun h => hb (hz.2 h))

end BinaryOp

end BlockScript
