import BlockScript.Session.Basic

/-!
# Transcripts

What a session prints when its lines come from an input: a banner, a prompt before every line it asks for, the replies,
and a farewell.
-/

namespace BlockScript

/-- The version of the program. -/
def version : String := "0.3.0"

namespace Session

/-- What is printed when a session starts. -/
def banner : String := s!"blocklang REPL v{version}\nType :help for help, :quit to exit\n\n"

/-- What is printed before a line is read. -/
def prompt : String := "blk> "

/-- What is printed when a session ends. -/
def farewell : String := "Goodbye!\n"

/-- What is printed for a line, and whether the session goes on. Errors are printed elsewhere. -/
def shown : Except SessionError Reply → String × Bool
  | .ok .silent => ("", true)
  | .ok (.text s) => (s, true)
  | .ok .quit => ("", false)
  | .error _ => ("", true)

/-- All that is printed for lines, from the first prompt on. -/
def transcript (env : Env) : List String → String
  | [] => prompt ++ farewell
  | line :: lines =>
    let (reply, env) := handle env line
    match shown reply with
    | (text, true) => prompt ++ text ++ transcript env lines
    | (text, false) => prompt ++ text ++ farewell

/-- The lines of an input. The last line need not be ended. -/
def inputLines (input : String) : List String :=
  let lines := Text.pieces '\n' input.toList
  (if lines.getLast? == some [] then lines.dropLast else lines).map .ofList

end Session

end BlockScript
