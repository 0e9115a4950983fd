import BlockScript.Text.Decimal
import BlockScript.Text.Hex

/-!
# Tokens of JSON

`Json.scan` cuts a text into the tokens of the JSON grammar: brackets, separators, the three words, numbers and
strings. A string may hold escapes of UTF-16 surrogates that do not pair up; it is a token all the same, but one that
stands for no text.
-/

namespace BlockScript.Json

/-- A token of JSON. -/
inductive Token where
  | beginArray
  | endArray
  | beginObject
  | endObject
  | colon
  | comma
  | null
  | bool (b : Bool)
  | number (numeral : String)
  /-- A string, without a text if an escaped surrogate is alone. -/
  | string (s : Option String)

/-- The blanks of JSON. -/
def isSpace (c : Char) : Bool := c == ' ' || c == '\t' || c == '\n' || c == '\r'

/-! ## Strings -/

/-- What a string is written with: characters that stand for themselves, and UTF-16 units written as escapes. -/
inductive Unit16 where
  | plain (c : Char)
  | escaped (code : Nat)

/-- The character that a short escape stands for. -/
def shortEscape? : Char → Option Char
  | '"' => some '"'
  | '\\' => some '\\'
  | '/' => some '/'
  | 'b' => some '\x08'
  | 'f' => some '\x0c'
  | 'n' => some '\n'
  | 'r' => some '\r'
  | 't' => some '\t'
  | _ => none

/-- What stands before the closing quote of a string, and what comes behind the quote. -/
def stringBody? : List Char → Option (List Unit16 × List Char)
  | [] => none
  | '"' :: cs => some ([], cs)
  | '\\' :: 'u' :: a :: b :: c :: d :: cs => do
    let code ← Text.hex? [a, b, c, d]
    let (us, after) ← stringBody? cs
    return (.escaped code :: us, after)
  | '\\' :: e :: cs => do
    let c ← shortEscape? e
    let (us, after) ← stringBody? cs
    return (.plain c :: us, after)
  | c :: cs =>
    if c.toNat < 0x20 then none
    else do
      let (us, after) ← stringBody? cs
      return (.plain c :: us, after)

def isHighSurrogate (code : Nat) : Bool := 0xD800 ≤ code && code < 0xDC00

def isLowSurrogate (code : Nat) : Bool := 0xDC00 ≤ code && code < 0xE000

/-- The text that units stand for, if every surrogate has its partner. -/
def assemble? : List Unit16 → Option (List Char)
  | [] => some []
  | .plain c :: us => (assemble? us).map (c :: ·)
  | .escaped high :: .escaped low :: us =>
    if isHighSurrogate high then
      if isLowSurrogate low then
        (assemble? us).map (Char.ofNat (0x10000 + (high - 0xD800) * 0x400 + (low - 0xDC00)) :: ·)
      else none
    else if isLowSurrogate high then none
    else (assemble? (.escaped low :: us)).map (Char.ofNat high :: ·)
  | .escaped code :: us =>
    if isHighSurrogate code || isLowSurrogate code then none
    else (assemble? us).map (Char.ofNat code :: ·)

/-! ## Numbers -/

/-- The length of the exponent at the front: a mark, an optional sign and at least one digit, or nothing. -/
def exponentLength : List Char → Nat
  | [] => 0
  | e :: cs =>
    if e == 'e' || e == 'E' then
      let sign := match cs with
        | '+' :: _ | '-' :: _ => 1
        | _ => 0
      match ((cs.drop sign).takeWhile Char.isDigit).length with
      | 0 => 0
      | n + 1 => n + 2 + sign
    else 0

/-- How many characters of `cs` belong to the unsigned number that starts with the digit `c`. A leading zero is the
whole integral part. -/
def unsignedLength (c : Char) (cs : List Char) : Nat :=
  let whole := if c == '0' then 0 else (cs.takeWhile Char.isDigit).length
  let fraction := Text.fractionLength (cs.drop whole)
  whole + fraction + exponentLength (cs.drop (whole + fraction))

/-- How many characters of `cs` belong to the number that starts with `c`, if one does. -/
def numberLength? (c : Char) (cs : List Char) : Option Nat :=
  if c == '-' then
    match cs with
    | d :: ds => if d.isDigit then some (unsignedLength d ds + 1) else none
    | [] => none
  else if c.isDigit then some (unsignedLength c cs)
  else none

/-! ## All tokens -/

/-- The token that starts with `c`, and what comes behind it. -/
def token? : Char → List Char → Option (Token × List Char)
  | '[', cs => some (.beginArray, cs)
  | ']', cs => some (.endArray, cs)
  | '\x7b', cs => some (.beginObject, cs)
  | '\x7d', cs => some (.endObject, cs)
  | ':', cs => some (.colon, cs)
  | ',', cs => some (.comma, cs)
  | 'n', 'u' :: 'l' :: 'l' :: cs => some (.null, cs)
  | 't', 'r' :: 'u' :: 'e' :: cs => some (.bool true, cs)
  | 'f', 'a' :: 'l' :: 's' :: 'e' :: cs => some (.bool false, cs)
  | '"', cs => do
    let (us, after) ← stringBody? cs
    return (.string ((assemble? us).map .ofList), after)
  | c, cs => do
    let n ← numberLength? c cs
    return (.number (.ofList (c :: cs.take n)), cs.drop n)

theorem length_le_of_stringBody? {cs : List Char} {us : List Unit16} {after : List Char}
    (h : stringBody? cs = some (us, after)) : after.length ≤ cs.length := by
  fun_induction stringBody? cs generalizing us after with
  | case1 => simp at h
  | case2 cs => simp_all
  | case3 a b c d cs ih =>
    simp only [Option.bind_eq_bind, Option.bind_eq_some_iff, Option.pure_def] at h
    obtain ⟨_, _, ⟨us', after'⟩, h₂, h₃⟩ := h
    have := ih h₂
    simp only [Option.some.injEq, Prod.mk.injEq] at h₃
    obtain ⟨-, rfl⟩ := h₃
    simp only [List.length_cons]
    omega
  | case4 e cs _ ih =>
    simp only [Option.bind_eq_bind, Option.bind_eq_some_iff, Option.pure_def] at h
    obtain ⟨_, _, ⟨us', after'⟩, h₂, h₃⟩ := h
    have := ih h₂
    simp only [Option.some.injEq, Prod.mk.injEq] at h₃
    obtain ⟨-, rfl⟩ := h₃
    simp only [List.length_cons]
    omega
  | case5 => simp at h
  | case6 c cs _ _ _ _ ih =>
    simp only [Option.bind_eq_bind, Option.bind_eq_some_iff, Option.pure_def] at h
    obtain ⟨⟨us', after'⟩, h₂, h₃⟩ := h
    have := ih h₂
    simp only [Option.some.injEq, Prod.mk.injEq] at h₃
    obtain ⟨-, rfl⟩ := h₃
    simp only [List.length_cons]
    omega

theorem length_le_of_token? {c : Char} {cs : List Char} {t : Token} {after : List Char}
    (h : token? c cs = some (t, after)) : after.length ≤ cs.length := by
  unfold token? at h
  split at h
  case h_10 =>
    simp only [Option.bind_eq_bind, Option.bind_eq_some_iff, Option.pure_def] at h
    obtain ⟨⟨us, rest⟩, h₁, h₂⟩ := h
    simp only [Option.some.injEq, Prod.mk.injEq] at h₂
    have := length_le_of_stringBody? h₁
    obtain ⟨-, rfl⟩ := h₂
    exact this
  case h_11 =>
    simp only [Option.bind_eq_bind, Option.bind_eq_some_iff, Option.pure_def] at h
    obtain ⟨n, -, h₂⟩ := h
    simp only [Option.some.injEq, Prod.mk.injEq] at h₂
    obtain ⟨-, rfl⟩ := h₂
    simp
  all_goals
    simp only [Option.some.injEq, Prod.mk.injEq] at h
    obtain ⟨-, rfl⟩ := h
    grind

/-- The tokens of a text. -/
def scan : List Char → Option (List Token)
  | [] => some []
  | c :: cs =>
    if isSpace c then scan cs
    else match _h : token? c cs with
      | none => none
      | some (t, after) => (scan after).map (t :: ·)
termination_by cs => cs.length
decreasing_by
  · simp
  · have := length_le_of_token? ‹_›
    simp only [List.length_cons]
    omega

end BlockScript.Json
