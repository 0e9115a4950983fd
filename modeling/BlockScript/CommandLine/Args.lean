import BlockScript.Text.Split
import BlockScript.Value.Basic

/-!
# Arguments

A command takes flags, options with a value, and at most one operand, in any order. `Shape` says which, and `Reading`
takes arguments in one by one. The value of an option is looked at when the next argument that fits is met or when the
arguments end, so an argument that does not fit is noticed before a bad value in front of it.
-/

namespace BlockScript.CommandLine

/-- Why the arguments are not a task. -/
inductive Stop where
  /-- A flag asks for the version instead. -/
  | version
  /-- A flag asks for help instead. -/
  | help
  /-- The arguments do not fit. -/
  | misuse
  /-- The value of an option is refused, for a reason. -/
  | refused (reason : String)
deriving DecidableEq

/-- How results are written. -/
inductive Format where
  | text
  | json
deriving DecidableEq

/-- What a flag or an option says. -/
inductive Setting where
  | on
  | format (f : Format)
  | binding (name : String) (v : Value)
deriving DecidableEq

/-- An argument without a value. -/
structure Flag where
  long : String
  short : Option Char
  /-- What is done at once when the flag is met, if anything is. -/
  stop : Option Stop

/-- An argument with a value. -/
structure Choice where
  long : String
  repeatable : Bool
  read : String → Except Stop Setting

/-- The argument that is neither. -/
structure Operand where
  /-- Whether it may look like a flag that the command does not know. -/
  mayStartWithHyphen : Bool
  mayBeEmpty : Bool

/-- The arguments of a command. -/
structure Shape where
  flags : List Flag
  choices : List Choice
  operand : Option Operand

def Shape.long? (s : Shape) (name : String) : Option Flag := s.flags.find? (·.long == name)

def Shape.short? (s : Shape) (c : Char) : Option Flag := s.flags.find? (·.short == some c)

def Shape.choice? (s : Shape) (name : String) : Option Choice := s.choices.find? (·.long == name)

/-- What has been read of a command's arguments. -/
structure Reading where
  settings : List (String × Setting)
  /-- The latest option, with its value once that is read too. -/
  pending : Option (Choice × Option String)
  operand : Option String
  /-- Whether all further arguments are operands. -/
  trailing : Bool

namespace Reading

def start : Reading := ⟨[], none, none, false⟩

/-- Adds a setting, which may come again only if it is repeatable. -/
def add (r : Reading) (name : String) (repeatable : Bool) (s : Setting) : Except Stop Reading :=
  if !repeatable && (r.settings.lookup name).isSome then .error .misuse
  else .ok { r with settings := r.settings ++ [(name, s)] }

/-- Looks at the value of the latest option, which must be there. -/
def settle (r : Reading) : Except Stop Reading :=
  match r.pending with
  | none => .ok r
  | some (_, none) => .error .misuse
  | some (choice, some value) => do
    let s ← choice.read value
    { r with pending := none }.add choice.long choice.repeatable s

def takeFlag (r : Reading) (flag : Flag) : Except Stop Reading := do
  let r ← r.settle
  match flag.stop with
  | some stop => .error stop
  | none => r.add flag.long false .on

/-- Takes an option in. A value that is attached to it is looked at right away. -/
def takeChoice (r : Reading) (choice : Choice) (attached : Option String) : Except Stop Reading := do
  let r ← r.settle
  let r := { r with pending := some (choice, attached) }
  if attached.isSome then r.settle else return r

def takeOperand (shape : Shape) (r : Reading) (arg : String) : Except Stop Reading :=
  match shape.operand, r.operand with
  | some operand, none => do
    let r ← r.settle
    if arg.isEmpty && !operand.mayBeEmpty then .error .misuse
    else return { r with operand := some arg }
  | _, _ => .error .misuse

/-- Takes in an argument that is no flag: the value that an option waits for, or the operand. -/
def takeWord (shape : Shape) (r : Reading) (arg : String) : Except Stop Reading :=
  match r.pending with
  | some (choice, none) => .ok { r with pending := some (choice, some arg) }
  | _ => r.takeOperand shape arg

/-- Takes flags in that are written as letters behind one hyphen. -/
def takeLetters (shape : Shape) : Reading → List Char → Except Stop Reading
  | r, [] => .ok r
  | r, c :: cs =>
    match shape.short? c with
    | some flag => do takeLetters shape (← r.takeFlag flag) cs
    | none => .error .misuse

/-- Whether an unknown flag would do as the operand. -/
def wantsHyphens (shape : Shape) (r : Reading) : Bool :=
  r.operand.isNone && (shape.operand.map (·.mayStartWithHyphen)).getD false

/-- Takes in an argument that starts with two hyphens. -/
def takeLong (shape : Shape) (r : Reading) (arg : String) (body : List Char) : Except Stop Reading :=
  let (name, attached) := match Text.cutAt (· == '=') body with
    | some (name, value) => (String.ofList name, some (String.ofList value))
    | none => (String.ofList body, none)
  match shape.long? name, shape.choice? name with
  | some flag, _ => if attached.isSome then .error .misuse else r.takeFlag flag
  | none, some choice => r.takeChoice choice attached
  | none, none => if r.wantsHyphens shape then r.takeWord shape arg else .error .misuse

/-- Takes one argument in. -/
def take (shape : Shape) (r : Reading) (arg : String) : Except Stop Reading :=
  if r.trailing then r.takeOperand shape arg
  else match arg.toList with
    | ['-', '-'] => .ok { r with trailing := true }
    | '-' :: '-' :: body => r.takeLong shape arg body
    | '-' :: c :: cs =>
      if r.wantsHyphens shape && (c :: cs).any fun c => (shape.short? c).isNone then r.takeWord shape arg
      else r.takeLetters shape (c :: cs)
    | _ => r.takeWord shape arg

/-- Takes all arguments of a command in. An operand that the command has must be there. -/
def all (shape : Shape) (args : List String) : Except Stop Reading := do
  let r ← args.foldlM (take shape) start
  let r ← r.settle
  if shape.operand.isSome && r.operand.isNone then .error .misuse else return r

/-- Whether a flag was met. -/
def has (r : Reading) (flag : String) : Bool := (r.settings.lookup flag).isSome

end Reading

end BlockScript.CommandLine
