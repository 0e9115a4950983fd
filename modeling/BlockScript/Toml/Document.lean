import BlockScript.Toml.Quoted
import BlockScript.Toml.Scalar
import BlockScript.Toml.Table

/-!
# TOML documents

A document is a sequence of lines that give values to keys, open tables, or open new elements of lists of tables.
`Toml.read?` reads the lines and puts the tables together.
-/

namespace BlockScript.Toml

/-- How deep lists and inline tables may nest, and how many parts a dotted key may have. -/
def nestingLimit : Nat := 79

/-! ## Between values -/

/-- The characters from the first one that is not a blank inside a line. -/
def skipSpace (cs : List Char) : List Char := cs.dropWhile isSpace

/-- What comes behind blanks, line breaks and whole comments. -/
def skipFiller? (inComment : Bool) : List Char → Option (List Char)
  | [] => if inComment then none else some []
  | '\n' :: cs => skipFiller? false cs
  | '\r' :: '\n' :: cs => skipFiller? false cs
  | c :: cs =>
    if inComment then (if isPlain c then skipFiller? true cs else none)
    else if isSpace c then skipFiller? false cs
    else if c == '#' then skipFiller? true cs
    else some (c :: cs)

/-- What comes behind the end of a line, before which there may be blanks and a comment. -/
def lineEnd? (cs : List Char) : Option (List Char) :=
  let cs := skipSpace cs
  let cs := if cs.head? == some '#' then cs.dropWhile isPlain else cs
  if cs.isEmpty then some [] else afterBreak? cs

/-! ## Keys -/

/-- The characters of keys without quotes. -/
def isKeyChar (c : Char) : Bool := c.isAlphanum || c == '_' || c == '-'

/-- The part of a key at the front, and what comes behind it. -/
def keyPart? (cs : List Char) : Option (String × List Char) :=
  if (cs.head?.map isKeyChar).getD false then
    some (.ofList (cs.takeWhile isKeyChar), cs.dropWhile isKeyChar)
  else (lineText? cs).map fun (text, after) => (.ofList text, after)

/-- The key at the front, of at most so many parts: the parts before the last one, the last one, and what comes behind
the key and the blanks after it. -/
def key? : Nat → List Char → Option ((List String × String) × List Char)
  | 0, _ => none
  | limit + 1, cs => do
    let (name, cs) ← keyPart? (skipSpace cs)
    match skipSpace cs with
    | '.' :: cs =>
      let ((path, last), cs) ← key? limit cs
      return ((name :: path, last), cs)
    | cs => return (([], name), cs)

/-! ## Values -/

/-- An entry of a table: the path of its key, the name at the end of it, and its value. -/
abbrev Entry := List String × String × Data

/-- The key, the equals sign and the value at the front, and what comes behind them. -/
def entry? (value : List Char → Option (Data × List Char)) (cs : List Char) : Option (Entry × List Char) := do
  let ((path, name), cs) ← key? nestingLimit cs
  match cs with
  | '=' :: cs =>
    let (d, cs) ← value (skipSpace cs)
    return ((path, name, d), cs)
  | _ => none

/-- The items of a list up to its bracket, and what comes behind it. There are at most `limit` of them. -/
def items? (value : List Char → Option (Data × List Char)) : (limit : Nat) → List Char → Option (List Data × List Char)
  | 0, _ => none
  | limit + 1, cs => do
    match ← skipFiller? false cs with
    | ']' :: cs => return ([], cs)
    | cs =>
      let (d, cs) ← value cs
      match ← skipFiller? false cs with
      | ',' :: cs =>
        let (ds, cs) ← items? value limit cs
        return (d :: ds, cs)
      | ']' :: cs => return ([d], cs)
      | _ => none

/-- The entries of an inline table up to its brace, and what comes behind it. There are at most `limit` of them. -/
def inlineEntries? (value : List Char → Option (Data × List Char)) :
    (limit : Nat) → List Char → Option (List Entry × List Char)
  | 0, _ => none
  | limit + 1, cs => do
    let (e, cs) ← entry? value cs
    match skipSpace cs with
    | ',' :: cs =>
      let (es, cs) ← inlineEntries? value limit cs
      return (e :: es, cs)
    | '\x7d' :: cs => return ([e], cs)
    | _ => none

/-- The value at the front, in which lists and inline tables nest at most so deep, and what comes behind it. -/
def value? : (depth : Nat) → List Char → Option (Data × List Char)
  | _, '"' :: cs => (quotedText? ('"' :: cs)).map fun (text, after) => (.text (.ofList text), after)
  | _, '\x27' :: cs => (quotedText? ('\x27' :: cs)).map fun (text, after) => (.text (.ofList text), after)
  | 0, '[' :: _ => none
  | 0, '\x7b' :: _ => none
  | depth + 1, '[' :: cs => do
    let (ds, cs) ← items? (value? depth) (cs.length + 1) cs
    return (.list ds, cs)
  | depth + 1, '\x7b' :: cs =>
    match skipSpace cs with
    | '\x7d' :: cs => some (.record [], cs)
    | cs => do
      let (es, cs) ← inlineEntries? (value? depth) (cs.length + 1) cs
      let ms ← Members.assignAll es []
      return (.record (Node.membersToData ms), cs)
  | _, cs => bareValue? cs

/-! ## Lines -/

/-- What a line says. -/
inductive Line where
  | entry (e : Entry)
  | table (path : List String) (name : String)
  | element (path : List String) (name : String)

/-- The lines of a document that say something. There are at most `limit` lines. -/
def lines? : (limit : Nat) → List Char → Option (List Line)
  | 0, _ => none
  | limit + 1, cs =>
    match skipSpace cs with
    | [] => some []
    | '\n' :: cs => lines? limit cs
    | '\r' :: cs => do lines? limit (← afterBreak? ('\r' :: cs))
    | '#' :: cs => do lines? limit (← lineEnd? ('#' :: cs))
    | '[' :: '[' :: cs => do
      match ← key? nestingLimit cs with
      | ((path, name), ']' :: ']' :: cs) => return .element path name :: (← lines? limit (← lineEnd? cs))
      | _ => none
    | '[' :: cs => do
      match ← key? nestingLimit cs with
      | ((path, name), ']' :: cs) => return .table path name :: (← lines? limit (← lineEnd? cs))
      | _ => none
    | cs => do
      let (e, cs) ← entry? (value? nestingLimit) cs
      return .entry e :: (← lines? limit (← lineEnd? cs))

/-- The entries at the front, and the lines from the first header. -/
def leadingEntries : List Line → List Entry × List Line
  | .entry e :: ls =>
    let (es, rest) := leadingEntries ls
    (e :: es, rest)
  | ls => ([], ls)

/-- Adds what the lines say to the tables so far. Each header opens a table for the entries behind it. -/
def addLines (ms : Members) : List Line → Option Members
  | [] => some ms
  | .entry _ :: ls => addLines ms ls
  | .table path name :: ls => do
    addLines (← ms.addTable path name (Members.assignAll (leadingEntries ls).1)) ls
  | .element path name :: ls => do
    addLines (← ms.addElement path name (Members.assignAll (leadingEntries ls).1)) ls

/-- The members of the document that a text spells. A byte order mark may stand in front. -/
def read? (source : String) : Option (List (String × Data)) := do
  let cs := match source.toList with
    | '\ufeff' :: cs => cs
    | cs => cs
  let ls ← lines? (cs.length + 1) cs
  let (es, sections) := leadingEntries ls
  let root ← Members.assignAll es []
  let ms ← addLines root sections
  return Node.membersToData ms

end BlockScript.Toml
