import BlockScript.Expr.Error
import BlockScript.Expr.Lexeme
import BlockScript.Text.Blank

/-!
# Tokens

Blanks are insignificant anywhere in an expression, also inside a numeral or a name: `1 2` reads as `12`. They are
dropped before lexemes are cut, but every remaining character keeps the byte offset it had, so a token knows the range
of the source from its first character to its last one.
-/

namespace BlockScript

open Text (Span isBlank blankFree)

/-- A character of the source and the byte offset where it stands. -/
structure Mark where
  offset : Nat
  char : Char

namespace Mark

/-- The offset just behind the character. -/
def stop (m : Mark) : Nat := m.offset + m.char.utf8Size

/-- The characters that are not blank; the first character of the list stands at `offset`. -/
def ofChars (offset : Nat) : List Char → List Mark
  | [] => []
  | c :: cs =>
    let later := ofChars (offset + c.utf8Size) cs
    if isBlank c then later else ⟨offset, c⟩ :: later

theorem map_char_ofChars (offset : Nat) (cs : List Char) : (ofChars offset cs).map char = blankFree cs := by
  induction cs generalizing offset with
  | nil => rfl
  | cons c cs ih =>
    rw [blankFree] at ih ⊢
    rw [ofChars, List.filter_cons]
    by_cases hc : isBlank c = true <;> simp [hc, ih]

/-- The range from the first mark to the last one. -/
def span (ms : List Mark) : Span :=
  ⟨(ms.head?.map offset).getD 0, (ms.getLast?.map stop).getD 0⟩

end Mark

/-- A lexeme and the range of the source it was read from. -/
structure Token where
  kind : Lexeme.Kind
  text : String
  span : Span
deriving DecidableEq

namespace Token

/-- Gives each lexeme the range of the marks that spell it. -/
def place : List Mark → List Lexeme → List Token
  | _, [] => []
  | ms, l :: ls =>
    let n := l.text.length
    ⟨l.kind, .ofList l.text, Mark.span (ms.take n)⟩ :: place (ms.drop n) ls

/-- The tokens of an expression, or its first character that no token can hold. -/
def scan (source : String) : Except ExprError (List Token) :=
  match Mark.ofChars 0 source.toList with
  | [] => .error .emptyExpression
  | m :: ms =>
    let marks := m :: ms
    match Lexeme.split (marks.map Mark.char) with
    | (ls, []) => .ok (place marks ls)
    | (_, c :: cs) =>
      let read := marks.length - (c :: cs).length
      .error (.unexpectedCharacter c.toString (Mark.span ((marks.drop read).take 1)))

end Token

end BlockScript
