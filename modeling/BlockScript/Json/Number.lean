import BlockScript.Text.Decimal
import BlockScript.Text.Split

/-!
# The range of JSON numbers

A number in a document that is read must not lie beyond the range of double-precision floats. It is measured in double
arithmetic: the digits are cut to a significand of 64 bits, and the significand is scaled by a power of ten, with each
of the three steps rounded to the nearest double.
-/

namespace BlockScript.Json

/-- The nearest number with 53 significant bits; a tie goes to the even one. -/
def roundToDouble (n : Nat) : Nat :=
  if n < Nat.pow 2 53 then n
  else
    let unit := Nat.pow 2 (n.log2 - 52)
    let down := n / unit
    let rest := n % unit
    let up := unit < 2 * rest || (unit == 2 * rest && down % 2 == 1)
    (if up then down + 1 else down) * unit

/-- Appends digits to a significand as long as 64 bits hold it, and counts the digits that were appended. -/
def appendDigits : Nat → List Char → Nat × Nat
  | significand, [] => (significand, 0)
  | significand, c :: cs =>
    let longer := 10 * significand + Text.natural [c]
    if longer < Nat.pow 2 64 then
      let (whole, count) := appendDigits longer cs
      (whole, count + 1)
    else (significand, 0)

/-- The digits before the point, the digits behind it, and the exponent of a number. -/
def numberParts (numeral : List Char) : List Char × List Char × Int :=
  let (mantissa, exponent) := (Text.cutAt (fun c => c == 'e' || c == 'E') numeral).getD (numeral, [])
  let (whole, fraction) := (Text.cutAt (· == '.') mantissa).getD (mantissa, [])
  let power : Int := match exponent with
    | '-' :: ds => -(Text.natural ds : Int)
    | '+' :: ds => Text.natural ds
    | ds => Text.natural ds
  (whole.filter Char.isDigit, fraction, power)

/-- Whether a number is in the range of doubles. -/
def isFinite (numeral : String) : Bool :=
  let (whole, fraction, power) := numberParts numeral.toList
  let (significand, wholeCount) := appendDigits 0 whole
  let (significand, fractionCount) := appendDigits significand fraction
  let exponent : Int := power + (whole.length - wholeCount : Nat) - (fractionCount : Nat)
  significand == 0 || exponent < 0 ||
    (exponent ≤ 308 &&
      roundToDouble (roundToDouble significand * roundToDouble (Nat.pow 10 exponent.toNat)) < Nat.pow 2 1024)

end BlockScript.Json
