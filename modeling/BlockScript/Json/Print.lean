import BlockScript.Data

/-!
# Writing JSON

Two layouts of the same text: `pretty` puts every item and member on a line of its own, two blanks deeper than its
container, and `compact` uses no blank at all. A string is written between quotes with escapes only where JSON asks
for one, so all characters but quotes, backslashes and controls stand for themselves.
-/

namespace BlockScript.Json

/-- How a character is written inside a string. -/
def quotedChar : Char → List Char
  | '"' => ['\\', '"']
  | '\\' => ['\\', '\\']
  | '\x08' => ['\\', 'b']
  | '\x0c' => ['\\', 'f']
  | '\n' => ['\\', 'n']
  | '\r' => ['\\', 'r']
  | '\t' => ['\\', 't']
  | c =>
    if c.toNat < 0x20 then ['\\', 'u', '0', '0', Nat.digitChar (c.toNat / 16), Nat.digitChar (c.toNat % 16)]
    else [c]

/-- A string between its quotes. -/
def quoted (s : String) : List Char := '"' :: s.toList.flatMap quotedChar ++ ['"']

/-- How the parts of containers are set apart. -/
structure Layout where
  /-- What stands before an item or a closing bracket, given how deep it is. -/
  lineBreak : Nat → List Char
  /-- What stands between a member's name and its value. -/
  colon : List Char

/-- One part a line, two blanks for each level. -/
def Layout.pretty : Layout := ⟨fun depth => '\n' :: List.replicate (2 * depth) ' ', [':', ' ']⟩

/-- No blanks. -/
def Layout.compact : Layout := ⟨fun _ => [], [':']⟩

mutual

/-- The text of a value that stands `depth` levels deep. -/
def write (layout : Layout) (depth : Nat) : Data → List Char
  | .null | .moment => "null".toList
  | .bool b => if b then "true".toList else "false".toList
  | .number numeral => numeral.toList
  | .text s => quoted s
  | .list [] => ['[', ']']
  | .list (x :: xs) =>
    '[' :: layout.lineBreak (depth + 1) ++ write layout (depth + 1) x ++ writeItems layout (depth + 1) xs
      ++ layout.lineBreak depth ++ [']']
  | .record [] => ['\x7b', '\x7d']
  | .record ((name, x) :: ms) =>
    '\x7b' :: layout.lineBreak (depth + 1) ++ quoted name ++ layout.colon ++ write layout (depth + 1) x
      ++ writeMembers layout (depth + 1) ms ++ layout.lineBreak depth ++ ['\x7d']

/-- The items after the first one. -/
def writeItems (layout : Layout) (depth : Nat) : List Data → List Char
  | [] => []
  | x :: xs => ',' :: layout.lineBreak depth ++ write layout depth x ++ writeItems layout depth xs

/-- The members after the first one. -/
def writeMembers (layout : Layout) (depth : Nat) : List (String × Data) → List Char
  | [] => []
  | (name, x) :: ms =>
    ',' :: layout.lineBreak depth ++ quoted name ++ layout.colon ++ write layout depth x
      ++ writeMembers layout depth ms

end

/-- The text with one part a line and no final line break. -/
def pretty (d : Data) : String := .ofList (write .pretty 0 d)

/-- The text without blanks. -/
def compact (d : Data) : String := .ofList (write .compact 0 d)

end BlockScript.Json
