import BlockScript.CommandLine.Task
import BlockScript.Program.File
import BlockScript.Program.Walk
import BlockScript.Report
import BlockScript.Session.Transcript

/-!
# Answers of the command line

What is printed for a task, and the exit code: 0 if it was done, 1 if a program or an expression failed or could not be
loaded, and 2 if the arguments do not fit.
-/

namespace BlockScript.CommandLine

/-- What the command line does in the end. -/
structure Answer where
  exitCode : Nat
  output : String := ""
  /-- The blocks that a traced run visited. -/
  visits : List Path := []
  /-- What is told about an error that is not part of the output. -/
  trouble : Option Diagnostic := none
  /-- Why the value of an option was refused. -/
  refusal : Option String := none

namespace Answer

/-- The task was done. -/
def done (output : String) : Answer := { exitCode := 0, output := output }

/-- The task failed with an error. -/
def failed (d : Diagnostic) : Answer := { exitCode := 1, trouble := some d }

end Answer

/-- What is told about the language. -/
def infoText : String :=
  "Blocklang\n" ++
  s!"Version: {version}\n" ++
  "\n" ++
  "Blocks:\n" ++
  "  - declare: names, comma separated, start at 0\n" ++
  "  - assign: integer literal into a declared variable\n" ++
  "  - calculate: expression into a declared variable\n" ++
  "  - if: compare two expressions, run nested blocks\n" ++
  "\n" ++
  "Expressions:\n" ++
  "  - 64-bit integers, names, + - * / % and parentheses\n" ++
  "  - division truncates toward zero\n"

/-- Answers instead of a task. -/
def Stop.answer : Stop → Answer
  | version => .done s!"blk {BlockScript.version}\n"
  | help => .done ""
  | misuse => { exitCode := 2 }
  | refused reason => { exitCode := 2, refusal := some reason }

/-- The program that a file holds is loaded and worked on, if it can be. -/
def withProgram (file : String) (content : Option ByteArray) (work : Program → Answer) : Answer :=
  match Program.load file content with
  | .ok t => work t
  | .error e => .failed e.diagnostic

/-- Runs a program from the empty environment. A failure is told once: in the output if that is a document, else as an
error that points into the program. -/
def runAnswer (format : Format) (trace : Bool) (t : Program) : Answer :=
  let o := BlockScript.run t.blocks .empty
  let answer : Answer := match format, o.result with
    | .text, .ok env => .done env.render
    | .text, .error f => .failed (Report.annotate t f).diagnostic
    | .json, result =>
      { exitCode := if o.failure.isNone then 0 else 1, output := Json.pretty (Report.toData result) ++ "\n" }
  { answer with visits := if trace then o.visited else [] }

/-- Counts the blocks of a program, and shows them if asked to. -/
def checkAnswer (file : String) (showTree : Bool) (t : Program) : Answer :=
  let tree := if showTree then t.outline else ""
  .done (tree ++ s!"{file}: {t.count} blocks ({t.size} top-level)\n")

/-- The file that a task is about. -/
def Task.file? : Task → Option String
  | run file _ _ => some file
  | check file _ => some file
  | _ => none

/-- Does a task, given what its file holds and what is typed. -/
def Task.answer (content : Option ByteArray) (input : String) : Task → Answer
  | run file format trace => withProgram file content (runAnswer format trace)
  | eval expression vars =>
    match calculate (.ofList vars) expression with
    | .ok v => .done (v.text ++ "\n")
    | .error e => .failed e.diagnostic
  | check file showTree => withProgram file content (checkAnswer file showTree)
  | repl => .done (Session.banner ++ Session.transcript .empty (Session.inputLines input))
  | info => .done infoText

end BlockScript.CommandLine
