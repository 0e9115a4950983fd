import BlockScript.Comparison
import BlockScript.Expr.Operator
import BlockScript.Text.Decimal

/-!
# Lexemes

A lexeme is a piece of an expression's blank-free characters: a numeral, a name, an operator, a comparison or a
parenthesis. `Lexeme.split` cuts lexemes off the front, each as long as possible, and stops where none fits.
-/

namespace BlockScript

/-- What a lexeme is. -/
inductive Lexeme.Kind where
  | number
  | name
  | arith (op : BinaryOp)
  | compare (op : Comparison)
  | openParen
  | closeParen
deriving DecidableEq

/-- How a kind of lexeme is written; numerals and names have no fixed text. -/
def Lexeme.Kind.symbol : Lexeme.Kind → String
  | number => "<number>"
  | name => "<ident>"
  | arith op => op.symbol
  | compare op => op.symbol
  | openParen => "("
  | closeParen => ")"

/-- A piece of an expression. -/
structure Lexeme where
  kind : Lexeme.Kind
  text : List Char
deriving DecidableEq

namespace Lexeme

/-- Names start with a letter or an underscore. Letters are those of ASCII. -/
def startsName (c : Char) : Bool := c.isAlpha || c == '_'

/-- Names go on with letters, digits and underscores. -/
def continuesName (c : Char) : Bool := c.isAlphanum || c == '_'

/-- The length of the digits at the front together with the fraction behind them. -/
def numeralLength (cs : List Char) : Nat :=
  let whole := (cs.takeWhile Char.isDigit).length
  whole + Text.fractionLength (cs.drop whole)

/-- The kind of a comparison, and whether it takes the character behind the first one. -/
def comparison? : Char → Option Char → Option (Comparison × Nat)
  | '=', some '=' => some (.eq, 1)
  | '!', some '=' => some (.ne, 1)
  | '<', some '=' => some (.le, 1)
  | '>', some '=' => some (.ge, 1)
  | '<', _ => some (.lt, 0)
  | '>', _ => some (.gt, 0)
  | _, _ => none

/-- The kind of the longest lexeme that starts with `c` and goes on in `cs`, and how many characters of `cs` it
takes. -/
def longest? (c : Char) (cs : List Char) : Option (Kind × Nat) :=
  if c.isDigit then some (.number, numeralLength cs)
  else if startsName c then some (.name, (cs.takeWhile continuesName).length)
  else match c with
    | '+' => some (.arith .add, 0)
    | '-' => some (.arith .sub, 0)
    | '*' => some (.arith .mul, 0)
    | '/' => some (.arith .div, 0)
    | '%' => some (.arith .rem, 0)
    | '(' => some (.openParen, 0)
    | ')' => some (.closeParen, 0)
    | _ => (comparison? c cs.head?).map fun (op, n) => (.compare op, n)

/-- The lexemes at the front, and the characters from the first one where no lexeme fits. -/
def split : List Char → List Lexeme × List Char
  | [] => ([], [])
  | c :: cs =>
    match longest? c cs with
    | none => ([], c :: cs)
    | some (kind, n) =>
      let after := split (cs.drop n)
      (⟨kind, c :: cs.take n⟩ :: after.1, after.2)
termination_by cs => cs.length
decreasing_by simp only [List.length_drop, List.length_cons]; omega

/-- Nothing is lost: the lexemes spell what comes before the characters that are left. -/
theorem flatMap_text_split (cs : List Char) : (split cs).1.flatMap text ++ (split cs).2 = cs := by
  fun_induction split cs with
  | case1 => rfl
  | case2 => rfl
  | case3 c cs kind n h after ih => simp [after, ih]

/-- Whether a text, with the blanks it holds, is one name and nothing else. -/
def isName (text : String) : Bool :=
  split text.toList = ([⟨.name, text.toList⟩], [])

end Lexeme

end BlockScript
