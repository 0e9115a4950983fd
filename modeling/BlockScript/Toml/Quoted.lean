import BlockScript.Text.Hex

/-!
# Quoted texts of TOML

Basic strings stand between quotation marks and know escapes; literal strings stand between apostrophes and know none.
Both may span lines if their marks come in threes. Then a line break right behind the opening is dropped, one or two
marks may stand inside or right before the closing, and every line break counts as a line feed.
-/

namespace BlockScript.Toml

/-- Blanks inside a line. -/
def isSpace (c : Char) : Bool := c == ' ' || c == '\t'

/-- Characters that stand for themselves in strings and comments: all but controls, of which a tab is allowed. -/
def isPlain (c : Char) : Bool := c == '\t' || (0x20 ≤ c.toNat && c.toNat != 0x7F)

/-- What comes behind the line break at the front, if one is there. -/
def afterBreak? : List Char → Option (List Char)
  | '\n' :: cs => some cs
  | '\r' :: '\n' :: cs => some cs
  | _ => none

/-- What comes behind the line break at the front, or all if there is none. -/
def dropBreak (cs : List Char) : List Char := (afterBreak? cs).getD cs

/-- The character that a short escape stands for. -/
def shortEscape? : Char → Option Char
  | 'b' => some '\x08'
  | 't' => some '\t'
  | 'n' => some '\n'
  | 'f' => some '\x0c'
  | 'r' => some '\r'
  | '"' => some '"'
  | '\\' => some '\\'
  | _ => none

/-- The character with a code point in hexadecimal digits; surrogates are no characters. -/
def codePoint? (digits : List Char) : Option Char := do
  let n ← Text.hex? digits
  if n.isValidChar then some (Char.ofNat n) else none

/-- The closing of a text in triple marks, which comes after at most two more marks: those, and what comes behind.
One mark has been read already. -/
def closing? (mark : Char) (cs : List Char) : Option (List Char × List Char) :=
  let count := (cs.take 4).takeWhile (· == mark) |>.length
  if 2 ≤ count then some (List.replicate (count - 2) mark, cs.drop count) else none

/-- Puts a character before a text that has been read. -/
def before (c : Char) (r : Option (List Char × List Char)) : Option (List Char × List Char) :=
  r.map fun (text, after) => (c :: text, after)

/-- The rest of a basic string, and what comes behind it. After a backslash at the end of a line, blanks and line breaks
are skipped. -/
def basicBody? (multiline : Bool) (skipping : Bool) : List Char → Option (List Char × List Char)
  | [] => none
  | '"' :: cs =>
    if multiline then
      match closing? '"' cs with
      | some done => some done
      | none => before '"' (basicBody? multiline false cs)
    else some ([], cs)
  | '\\' :: 'u' :: a :: b :: c :: d :: cs => do
    let ch ← codePoint? [a, b, c, d]
    before ch (basicBody? multiline false cs)
  | '\\' :: 'U' :: a :: b :: c :: d :: e :: f :: g :: h :: cs => do
    let ch ← codePoint? [a, b, c, d, e, f, g, h]
    before ch (basicBody? multiline false cs)
  | '\\' :: e :: cs =>
    if multiline && (afterBreak? ((e :: cs).dropWhile isSpace)).isSome then basicBody? multiline true (e :: cs)
    else do
      let ch ← shortEscape? e
      before ch (basicBody? multiline false cs)
  | '\r' :: '\n' :: cs =>
    if !multiline then none
    else if skipping then basicBody? multiline true cs
    else before '\n' (basicBody? multiline false cs)
  | '\n' :: cs =>
    if !multiline then none
    else if skipping then basicBody? multiline true cs
    else before '\n' (basicBody? multiline false cs)
  | c :: cs =>
    if skipping && isSpace c then basicBody? multiline true cs
    else if isPlain c && c != '\\' then before c (basicBody? multiline false cs)
    else none

/-- The rest of a literal string, and what comes behind it. -/
def literalBody? (multiline : Bool) : List Char → Option (List Char × List Char)
  | [] => none
  | '\x27' :: cs =>
    if multiline then
      match closing? '\x27' cs with
      | some done => some done
      | none => before '\x27' (literalBody? multiline cs)
    else some ([], cs)
  | '\r' :: '\n' :: cs => if multiline then before '\n' (literalBody? multiline cs) else none
  | '\n' :: cs => if multiline then before '\n' (literalBody? multiline cs) else none
  | c :: cs => if isPlain c then before c (literalBody? multiline cs) else none

/-- The text in single marks at the front. -/
def lineText? : List Char → Option (List Char × List Char)
  | '"' :: cs => basicBody? false false cs
  | '\x27' :: cs => literalBody? false cs
  | _ => none

/-- The quoted text at the front, and what comes behind it. -/
def quotedText? : List Char → Option (List Char × List Char)
  | '"' :: '"' :: '"' :: cs => basicBody? true false (dropBreak cs)
  | '\x27' :: '\x27' :: '\x27' :: cs => literalBody? true (dropBreak cs)
  | cs => lineText? cs

end BlockScript.Toml
