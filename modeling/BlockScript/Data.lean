/-!
# Documents

The values that a program file or a report is made of, whichever notation they are written in.
-/

namespace BlockScript

/-- A document value. Numbers keep the text they are written with, and records the order of their members. -/
inductive Data where
  | null
  | bool (b : Bool)
  | number (numeral : String)
  | text (s : String)
  /-- A date, a time of day or both. No part of a program is one. -/
  | moment
  | list (items : List Data)
  | record (members : List (String × Data))

namespace Data

def ofNat (n : Nat) : Data := number (toString n)

def ofTexts (ss : List String) : Data := list (ss.map text)

end Data

end BlockScript
