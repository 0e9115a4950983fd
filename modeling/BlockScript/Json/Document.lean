import BlockScript.Data
import BlockScript.Json.Number
import BlockScript.Json.Tree

/-!
# JSON values as documents

Not every JSON value is a document: strings have to be texts, numbers have to be in range, and containers may nest
only so deep.
-/

namespace BlockScript.Json

mutual

/-- The document of a value in which at most `depth` containers are nested. -/
def toData? (depth : Nat) : Json → Option Data
  | .null => some .null
  | .bool b => some (.bool b)
  | .number numeral => if isFinite numeral then some (.number numeral) else none
  | .string s => s.map .text
  | .array items =>
    match depth with
    | 0 => none
    | depth + 1 => (itemsToData? depth items).map .list
  | .object members =>
    match depth with
    | 0 => none
    | depth + 1 => (membersToData? depth members).map .record

def itemsToData? (depth : Nat) : List Json → Option (List Data)
  | [] => some []
  | j :: js => do
    let d ← toData? depth j
    let ds ← itemsToData? depth js
    return d :: ds

def membersToData? (depth : Nat) : List (Option String × Json) → Option (List (String × Data))
  | [] => some []
  | (name, j) :: ms => do
    let name ← name
    let d ← toData? depth j
    let ds ← membersToData? depth ms
    return (name, d) :: ds

end

end BlockScript.Json
