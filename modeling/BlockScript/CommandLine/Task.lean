import BlockScript.CommandLine.Args
import BlockScript.Expr.Lexeme
import BlockScript.Text.Blank
import BlockScript.Value.Numeral

/-!
# Tasks

What the command line can be asked to do, and how its arguments say it.
-/

namespace BlockScript.CommandLine

/-- What the command line is asked to do. -/
inductive Task where
  /-- Run the program in a file. -/
  | run (file : String) (format : Format) (trace : Bool)
  /-- Compute an expression with some variables. -/
  | eval (expression : String) (vars : List (String × Value))
  /-- Load the program in a file and count its blocks. -/
  | check (file : String) (showTree : Bool)
  /-- Hold a session. -/
  | repl
  /-- Tell about the language. -/
  | info

/-- The names of the commands. -/
inductive Subcommand where
  | run
  | eval
  | check
  | repl
  | info
  | help
deriving DecidableEq

/-- The command with a name. -/
def Subcommand.ofName? : String → Option Subcommand
  | "run" => some .run
  | "eval" => some .eval
  | "check" => some .check
  | "repl" => some .repl
  | "info" => some .info
  | "help" => some .help
  | _ => none

/-- Reads a binding `NAME=VALUE`. -/
def readBinding (arg : String) : Except Stop Setting :=
  match Text.splitOnce (· == '=') arg with
  | none => .error (.refused s!"expected NAME=VALUE, got `{arg}`")
  | some (name, value) =>
    let name := Text.trim name
    if !Lexeme.isName name then .error (.refused s!"`{name}` is not a valid variable name")
    else match Value.read (Text.trim value).toList with
      | .ok v => .ok (.binding name v)
      | .error fault => .error (.refused s!"invalid value for `{name}`: {fault.message}")

/-- Reads the name of a format. -/
def readFormat : String → Except Stop Setting
  | "text" => .ok (.format .text)
  | "json" => .ok (.format .json)
  | _ => .error .misuse

/-- Flags that all commands know. -/
def commonFlags : List Flag := [⟨"verbose", some 'v', none⟩, ⟨"help", some 'h', some .help⟩]

/-- The arguments before the name of a command. -/
def topShape : Shape := ⟨commonFlags ++ [⟨"version", some 'V', some .version⟩], [], none⟩

/-- The operand of the commands that work on a file. -/
def fileOperand : Operand := ⟨false, false⟩

/-- The arguments of a command. -/
def Subcommand.shape : Subcommand → Shape
  | run => ⟨commonFlags ++ [⟨"trace", none, none⟩], [⟨"format", false, readFormat⟩], some fileOperand⟩
  | eval => ⟨commonFlags, [⟨"var", true, readBinding⟩], some ⟨true, true⟩⟩
  | check => ⟨commonFlags ++ [⟨"show-tree", none, none⟩], [], some fileOperand⟩
  | repl | info | help => ⟨commonFlags, [], none⟩

/-- The task that a command's arguments ask for. -/
def Subcommand.task (c : Subcommand) (r : Reading) : Except Stop Task :=
  let operand := r.operand.getD ""
  let settings := r.settings.map (·.2)
  match c with
  | run =>
    let formats := settings.filterMap fun
      | .format f => some f
      | _ => none
    .ok (.run operand (formats.head?.getD .text) (r.has "trace"))
  | eval =>
    .ok (.eval operand (settings.filterMap fun
      | .binding name v => some (name, v)
      | _ => none))
  | check => .ok (.check operand (r.has "show-tree"))
  | repl => .ok .repl
  | info => .ok .info
  | help => .error .help

/-- The task that the arguments behind the name of a command ask for. Behind `help` there may be such a name. -/
def Subcommand.parse (c : Subcommand) (args : List String) : Except Stop Task :=
  match c, args with
  | .help, [] => .error .help
  | .help, [name] => .error (if (ofName? name).isSome then .help else .misuse)
  | .help, _ => .error .misuse
  | c, args => do c.task (← Reading.all c.shape args)

/-- The task that the arguments of the command line ask for, once some of them have been read. -/
def parseFrom : Reading → List String → Except Stop Task
  | _, [] => .error .misuse
  | r, arg :: args =>
    match if r.trailing then none else Subcommand.ofName? arg with
    | some c => c.parse args
    | none => do parseFrom (← r.take topShape arg) args

/-- The task that the arguments of the command line ask for. -/
def parse (args : List String) : Except Stop Task := parseFrom .start args

end BlockScript.CommandLine
