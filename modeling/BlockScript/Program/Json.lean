import BlockScript.Json.Document
import BlockScript.Json.Print
import BlockScript.Program.Document

/-!
# Programs in JSON

A program is written as an object with the one member `blocks`. When one is read, other members are skipped with only
their grammar checked, and a list with the sequence of blocks as its only item will do for the object.
-/

namespace BlockScript.Program

/-- How many containers may be nested in the sequence of blocks, itself included: with the program's own container
around it they are 127. -/
def jsonDepth : Nat := 126

/-- Reads the sequence of blocks of a program. Inside a body, kinds of blocks may be numbers. -/
def blocksOfJson? (j : Json) : Option Program := do
  let d ← j.toData? jsonDepth
  ofBlocks? true d

/-- Reads a program from a JSON value. -/
def ofJsonValue? : Json → Option Program
  | .array [] => some empty
  | .array [blocks] => blocksOfJson? blocks
  | .object members =>
    match members.mapM fun (name, j) => name.map (·, j) with
    | none => none
    | some named =>
      match Data.optional? "blocks" named with
      | none => none
      | some none => some empty
      | some (some blocks) => blocksOfJson? blocks
  | _ => none

/-- Reads a program from a JSON text. -/
def ofJson? (source : String) : Option Program := do
  let j ← Json.read? source
  ofJsonValue? j

/-- Writes a program as a JSON text. -/
def toJson (t : Program) : String := Json.pretty t.toData

end BlockScript.Program
