import BlockScript.CommandLine.Answer

/-!
# The command line

Reads the arguments, the file they name and the lines that are typed, and prints what the library answers.
-/

namespace BlockScript

/-- The contents of a file, if it can be read. -/
def readFile? (file : String) : IO (Option ByteArray) := do
  try
    return some (← IO.FS.readBinFile file)
  catch _ => return none

/-- Prints what is told about an error. -/
def printDiagnostic (d : Diagnostic) : IO Unit := do
  IO.eprintln s!"{d.code}: {d.message}"
  if let some help := d.help then
    IO.eprintln s!"  help: {help}"

/-- Reads lines and answers them until one ends the session or the input ends. -/
partial def converse (input output : IO.FS.Stream) (env : Env) : IO Unit := do
  output.putStr Session.prompt
  output.flush
  let line ← input.getLine
  if line.isEmpty then
    output.putStr Session.farewell
  else
    let (reply, env) := Session.handle env line
    if let .error e := reply then
      printDiagnostic e.diagnostic
    let (text, goesOn) := Session.shown reply
    output.putStr text
    if goesOn then converse input output env else output.putStr Session.farewell

/-- Prints an answer, and gives its exit code. -/
def printAnswer (answer : CommandLine.Answer) : IO UInt32 := do
  for path in answer.visits do
    IO.eprintln s!"visit {path.text}"
  (← IO.getStdout).putStr answer.output
  if let some d := answer.trouble then
    printDiagnostic d
  if let some reason := answer.refusal then
    IO.eprintln s!"error: {reason}"
  return answer.exitCode.toUInt32

end BlockScript

open BlockScript in
/-- Does what the arguments ask for, and gives the exit code. -/
def main (args : List String) : IO UInt32 := do
  match CommandLine.parse args with
  | .error stop => printAnswer stop.answer
  | .ok .repl =>
    let output ← IO.getStdout
    output.putStr Session.banner
    converse (← IO.getStdin) output .empty
    return 0
  | .ok task =>
    let content ← match task.file? with
      | some file => readFile? file
      | none => pure none
    printAnswer (task.answer content "")
