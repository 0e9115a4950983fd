import BlockScript.Report

/-!
# Interactive sessions

A session reads lines. A line is a block in the form in which blocks are shown, a command that starts with a colon, or
an expression to compute. The variables stay from line to line.
-/

namespace BlockScript

open Text (trim splitOnce isBlank)

/-- What a line asks for. -/
inductive Command where
  | block (b : Block)
  | eval (expression : String)
  | vars
  | reset
  | help
  | quit

/-- Why a line asks for nothing known. -/
inductive LineError where
  | unknownCommand (line : String)
  | missingEquals (keyword : String)
deriving DecidableEq

/-- What is told about a line that cannot be read. -/
def LineError.diagnostic : LineError → Diagnostic
  | unknownCommand line =>
    { kind := "unknown_command"
      message := s!"Unknown command `{line}`"
      code := "repl::unknown_command"
      help := some "type :help for a list of commands" }
  | missingEquals keyword =>
    { kind := "missing_equals"
      message := s!"Expected `=` after `{keyword}`"
      code := "repl::missing_equals" }

namespace Command

/-- The two sides of the first equals sign, trimmed. -/
def sides (keyword text : String) : Except LineError (String × String) :=
  match splitOnce (· == '=') text with
  | some (lhs, rhs) => .ok (trim lhs, trim rhs)
  | none => .error (.missingEquals keyword)

/-- The command that a line gives, if it is not blank. -/
def read? (line : String) : Except LineError (Option Command) :=
  let line := trim line
  if line.isEmpty then .ok none
  else if line.toList.head? = some ':' then
    match line with
    | ":quit" | ":q" => .ok (some quit)
    | ":help" | ":h" => .ok (some help)
    | ":vars" => .ok (some vars)
    | ":reset" => .ok (some reset)
    | _ => .error (.unknownCommand line)
  else
    let (keyword, rest) := (splitOnce isBlank line).getD (line, "")
    match keyword with
    | "declare" => .ok (some (block (.declare [trim rest])))
    | "set" => do
      let (target, literal) ← sides keyword rest
      return some (block (.assign target literal))
    | "calc" => do
      let (target, expression) ← sides keyword rest
      return some (block (.calculate target expression))
    | _ => .ok (some (eval line))

end Command

/-- What a session answers to a line. -/
inductive Reply where
  | silent
  | text (s : String)
  | quit
deriving DecidableEq

/-- Why a session has no answer to a line. -/
inductive SessionError where
  | line (cause : LineError)
  /-- A block failed. -/
  | run (cause : RunError)
  /-- An expression has no value. It is kept to be shown with the error. -/
  | expression (cause : ExprError) (source : String)
deriving DecidableEq

def SessionError.diagnostic : SessionError → Diagnostic
  | line cause => cause.diagnostic
  | run cause => cause.diagnostic
  | expression cause _ => cause.diagnostic

/-- The text that the error is shown with, if it is about an expression alone. -/
def SessionError.source? : SessionError → Option String
  | expression _ source => some source
  | _ => none

namespace Session

/-- The answer to the help command. -/
def helpText : String :=
  "Commands:\n" ++
  "  declare a, b     Declare variables (set to 0)\n" ++
  "  set a = 5        Store an integer literal\n" ++
  "  calc a = a * 2   Store the value of an expression\n" ++
  "  <expr>           Evaluate an expression\n" ++
  "  :vars            Show all variables\n" ++
  "  :reset           Forget all variables\n" ++
  "  :help, :h        Show this help\n" ++
  "  :quit, :q        Exit the REPL\n"

/-- The answer to a block that has been run: the variable it stored, if it names one. -/
def echo (env : Env) (b : Block) : Reply :=
  let stored (target : String) : Reply :=
    match env.get? (trim target) with
    | some v => .text s!"{trim target} = {v.text}\n"
    | none => .silent
  match b with
  | .assign target _ => stored target
  | .calculate target _ => stored target
  | _ => .silent

/-- Does what a command asks for, and gives the variables after it. -/
def obey (env : Env) : Command → Except SessionError Reply × Env
  | .quit => (.ok .quit, env)
  | .help => (.ok (.text helpText), env)
  | .vars => (.ok (.text env.render), env)
  | .reset => (.ok .silent, .empty)
  | .eval expression =>
    match calculate env expression with
    | .ok v => (.ok (.text (v.text ++ "\n")), env)
    | .error e => (.error (.expression e expression), env)
  | .block b =>
    let o := run [b] env
    match o.failure with
    | none => (.ok (echo o.env b), o.env)
    | some f => (.error (.run f.error), o.env)

/-- Handles one line, and gives the variables after it. -/
def handle (env : Env) (line : String) : Except SessionError Reply × Env :=
  match Command.read? line with
  | .error e => (.error (.line e), env)
  | .ok none => (.ok .silent, env)
  | .ok (some command) => obey env command

end Session

end BlockScript
