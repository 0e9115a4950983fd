import BlockScript.Diagnostic
import BlockScript.Program.Json
import BlockScript.Toml.Document

/-!
# Program files

A program is kept in JSON or in TOML, and the extension of its file says in which of them.
-/

namespace BlockScript.Program

/-- Reads a program from a TOML text. -/
def ofToml? (source : String) : Option Program := do
  let members ← Toml.read? source
  match ← Data.optional? "blocks" members with
  | none => return empty
  | some blocks => ofBlocks? false blocks

/-- Why there is no program to be had. -/
inductive LoadError where
  | unreadable (file : String)
  | json
  | toml
  | unknownFormat (file : String)
deriving DecidableEq

/-- What is told about a program that cannot be had. -/
def LoadError.diagnostic : LoadError → Diagnostic
  | unreadable file =>
    { kind := "io", message := s!"Failed to read `{file}`", code := "program::io" }
  | json => { kind := "json", message := "Invalid JSON program", code := "program::json" }
  | toml => { kind := "toml", message := "Invalid TOML program", code := "program::toml" }
  | unknownFormat file =>
    { kind := "format"
      message := s!"Unsupported program format for `{file}`"
      code := "program::format"
      help := some "use a `.json` or `.toml` file" }

/-- Reads a program from a JSON text, or says that it cannot. -/
def ofJson (source : String) : Except LoadError Program := (ofJson? source).elim (.error .json) .ok

/-- Reads a program from a TOML text, or says that it cannot. -/
def ofToml (source : String) : Except LoadError Program := (ofToml? source).elim (.error .toml) .ok

/-- The last component of a file's path. Empty components and single points say nothing. -/
def fileName? (file : String) : Option String :=
  ((Text.splitOn '/' file).filter fun part => part != "" && part != ".").getLast?

/-- What comes behind the last point of a file name, if something comes before that point. -/
def extension? (file : String) : Option String := do
  let name ← fileName? file
  if name == ".." then none
  let (reversed, before) ← Text.cutAt (· == '.') name.toList.reverse
  if before.isEmpty then none
  return .ofList reversed.reverse

/-- Reads the program in a file, given what the file holds. A file that is missing or holds no text is told first. -/
def load (file : String) (content : Option ByteArray) : Except LoadError Program :=
  match content.bind String.fromUTF8? with
  | none => .error (.unreadable file)
  | some source =>
    match extension? file with
    | some "json" => ofJson source
    | some "toml" => ofToml source
    | _ => .error (.unknownFormat file)

end BlockScript.Program
