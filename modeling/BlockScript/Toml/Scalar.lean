import BlockScript.Data
import BlockScript.Text.Decimal
import BlockScript.Text.Hex
import BlockScript.Text.Split
import BlockScript.Value.Basic

/-!
# Bare values of TOML

Numbers, words, dates and times are written without quotes. Such a value is the run of characters that a bare value can
hold, and then the whole run has to be one of the four.
-/

namespace BlockScript.Toml

/-- The characters of bare values. -/
def isBare (c : Char) : Bool := c.isAlphanum || "+-._:".toList.contains c

/-! ## Numbers -/

/-- Whether the characters are digits, with single underscores between some of them. -/
def isGrouped (isDigit : Char → Bool) (cs : List Char) : Bool :=
  (Text.pieces '_' cs).all fun group => !group.isEmpty && group.all isDigit

/-- The digits alone. -/
def ungrouped (cs : List Char) : List Char := cs.filter (· != '_')

/-- The sign at the front, if there is one, and the rest. -/
def signed : List Char → Option Char × List Char
  | '+' :: cs => (some '+', cs)
  | '-' :: cs => (some '-', cs)
  | cs => (none, cs)

/-- Whether the characters are a decimal integer without a sign: digits that start with no superfluous zero. -/
def isWhole (cs : List Char) : Bool :=
  isGrouped Char.isDigit cs && (cs.head? != some '0' || cs.length == 1)

/-- Whether the characters are a decimal integer in the range of values. -/
def isInteger (cs : List Char) : Bool :=
  let (sign, digits) := signed cs
  let n : Int := Text.natural (ungrouped digits)
  isWhole digits && (Value.ofInt? (if sign == some '-' then -n else n)).isSome

/-- The number that digits of a base up to sixteen stand for, if all of them are digits of it. -/
def based? (base : Nat) (digits : List Char) : Option Nat :=
  digits.foldlM (fun n c => do
    let d ← Text.hexDigit? c
    if d < base then some (base * n + d) else none) 0

/-- Whether the characters are digits of a base, in the range of values. -/
def isBased (base : Nat) (cs : List Char) : Bool :=
  isGrouped (fun c => (based? base [c]).isSome) cs &&
    match based? base (ungrouped cs) with
    | some n => (Value.ofNat? n).isSome
    | none => false

/-- Whether `digits · 10 ^ exponent` is nearer to infinity than to the largest double. -/
def exceedsDoubles (digits : List Char) (exponent : Int) : Bool :=
  let n := Text.natural digits
  let bound := Nat.pow 2 1024 - Nat.pow 2 970
  if n == 0 then false
  else if 0 ≤ exponent then 309 < exponent || bound ≤ n * Nat.pow 10 exponent.toNat
  else digits.length + exponent > 0 && bound * Nat.pow 10 (-exponent).toNat ≤ n

/-- Whether the characters are a decimal number with a fraction, an exponent or both. One beyond the range of doubles
has to be negative. -/
def isFloat (cs : List Char) : Bool :=
  let (sign, number) := signed cs
  let (mantissa, exponent) := match Text.cutAt (fun c => c == 'e' || c == 'E') number with
    | some (mantissa, exponent) => (mantissa, some exponent)
    | none => (number, none)
  let (whole, fraction) := match Text.cutAt (· == '.') mantissa with
    | some (whole, fraction) => (whole, some fraction)
    | none => (mantissa, none)
  let (expSign, expDigits) := signed (exponent.getD ['0'])
  let power : Int := Text.natural (ungrouped expDigits)
  let fractionDigits := ungrouped (fraction.getD [])
  let scale : Int := (if expSign == some '-' then -power else power) - fractionDigits.length
  (fraction.isSome || exponent.isSome) && isWhole whole && (fraction.getD ['0'] |> isGrouped Char.isDigit) &&
    isGrouped Char.isDigit expDigits &&
    (sign == some '-' || !exceedsDoubles (ungrouped whole ++ fractionDigits) scale)

/-- Whether the characters are infinity or the value that is no number. -/
def isSpecial (cs : List Char) : Bool :=
  let (_, word) := signed cs
  word == "inf".toList || word == "nan".toList

/-- Whether the characters are a number. -/
def isNumber : List Char → Bool
  | '0' :: 'x' :: cs => isBased 16 cs
  | '0' :: 'o' :: cs => isBased 8 cs
  | '0' :: 'b' :: cs => isBased 2 cs
  | cs => isInteger cs || isFloat cs || isSpecial cs

/-! ## Dates and times -/

/-- The number of two digits, if it lies between two bounds. -/
def twoDigits? (low high : Nat) (a b : Char) : Option Nat :=
  let n := Text.natural [a, b]
  if a.isDigit && b.isDigit && low ≤ n && n ≤ high then some n else none

/-- The number of days of a month. -/
def daysIn (year month : Nat) : Nat :=
  let leap := year % 4 == 0 && (year % 100 != 0 || year % 400 == 0)
  if month == 2 then (if leap then 29 else 28)
  else if [4, 6, 9, 11].contains month then 30
  else 31

/-- What comes behind a date at the front. -/
def afterDate? : List Char → Option (List Char)
  | y₁ :: y₂ :: y₃ :: y₄ :: '-' :: m₁ :: m₂ :: '-' :: d₁ :: d₂ :: cs => do
    let year := [y₁, y₂, y₃, y₄]
    let month ← twoDigits? 1 12 m₁ m₂
    let _ ← twoDigits? 1 (daysIn (Text.natural year) month) d₁ d₂
    if year.all Char.isDigit then some cs else none
  | _ => none

/-- What comes behind a time of day at the front. A minute may have a leap second. -/
def afterTime? : List Char → Option (List Char)
  | h₁ :: h₂ :: ':' :: m₁ :: m₂ :: ':' :: s₁ :: s₂ :: cs => do
    let _ ← twoDigits? 0 23 h₁ h₂
    let _ ← twoDigits? 0 59 m₁ m₂
    let _ ← twoDigits? 0 60 s₁ s₂
    match cs with
    | '.' :: ds => if (ds.head?.map Char.isDigit).getD false then some (ds.dropWhile Char.isDigit) else none
    | _ => some cs
  | _ => none

/-- Whether the characters are empty or a distance from universal time. -/
def isOffset : List Char → Bool
  | [] | ['Z'] | ['z'] => true
  | [sign, h₁, h₂, ':', m₁, m₂] =>
    (sign == '+' || sign == '-') && (twoDigits? 0 23 h₁ h₂).isSome && (twoDigits? 0 59 m₁ m₂).isSome
  | _ => false

/-- Whether the characters are a time of day, perhaps with a distance from universal time. -/
def isTimeOfDate (cs : List Char) : Bool := ((afterTime? cs).map isOffset).getD false

/-- Whether the characters are a date, a time, or a date and a time with the letter T between them. -/
def isMoment (cs : List Char) : Bool :=
  match afterDate? cs with
  | some [] => true
  | some (delimiter :: time) => (delimiter == 'T' || delimiter == 't') && isTimeOfDate time
  | none => afterTime? cs == some []

/-! ## All bare values -/

/-- The bare value at the front, and what comes behind it. A date and its time may have a blank between them. -/
def bareValue? (cs : List Char) : Option (Data × List Char) :=
  let word := cs.takeWhile isBare
  let after := cs.drop word.length
  if word == "true".toList then some (.bool true, after)
  else if word == "false".toList then some (.bool false, after)
  else if isNumber word then some (.number (.ofList word), after)
  else if isMoment word then
    match afterDate? word, after with
    | some [], ' ' :: d :: ds =>
      if d.isDigit then
        let time := (d :: ds).takeWhile isBare
        if isTimeOfDate time then some (.moment, (d :: ds).drop time.length) else none
      else some (.moment, after)
    | _, _ => some (.moment, after)
  else none

end BlockScript.Toml
