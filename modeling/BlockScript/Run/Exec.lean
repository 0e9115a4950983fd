import BlockScript.Block
import BlockScript.Expr.Calculate
import BlockScript.Path
import BlockScript.Text.Blank
import BlockScript.Value.Numeral

/-!
# Running a program

Blocks are executed one after the other against one environment. A condition block that holds executes its body at its
place. The first block that fails ends the run; what the blocks before it have changed stays changed.
-/

namespace BlockScript

open Text (trim isBlankText)

/-- A block that ended a run, and why. -/
structure Failure where
  path : Path
  error : RunError
deriving DecidableEq

/-- The one line that names the block of a failure. -/
def Failure.title (f : Failure) : String := s!"Block {f.path.text} failed"

/-! ## What a single block does -/

/-- The names that the entries of a declaration hold, trimmed and without empty ones. -/
def declaredNames (entries : List String) : List String :=
  ((entries.flatMap (Text.splitOn ',')).map trim).filter fun name => !name.isEmpty

/-- Declares all names of a declaration, or none if one of them is no name. -/
def execDeclare (entries : List String) (env : Env) : Except RunError Env :=
  let names := declaredNames entries
  match names.find? fun name => !Lexeme.isName name with
  | some bad => .error (.invalidIdentifier bad)
  | none => .ok (names.foldl Env.declare env)

/-- A way to set a variable, which may fail. -/
abbrev Setter := Env → String → Value → Except RunError Env

/-- Stores a literal by `set`. A blank target is a block that is not filled in yet, and stores nothing. -/
def execAssignWith (set : Setter) (target literal : String) (env : Env) : Except RunError Env :=
  let target := trim target
  if target.isEmpty then .ok env
  else if !env.isDeclared target then .error (.undeclaredVariable target)
  else match Value.readLiteral? literal with
    | none => .error (.notAnInteger literal)
    | some v => set env target v

/-- Stores a literal. -/
def execAssign (target literal : String) (env : Env) : Except RunError Env := execAssignWith Env.set target literal env

/-- The value of an expression, with its errors as errors of the block. -/
def blockValue (env : Env) (source : String) : Except RunError Value :=
  (calculate env source).mapError .expression

/-- Stores the value of an expression by `set`. -/
def execCalculateWith (set : Setter) (target expression : String) (env : Env) : Except RunError Env :=
  let target := trim target
  if target.isEmpty then .error (.missingOperand .targetVariable)
  else if isBlankText expression then .error (.missingOperand .expression)
  else if !env.isDeclared target then .error (.undeclaredVariable target)
  else do
    let v ← blockValue env expression
    set env target v

/-- Stores the value of an expression. -/
def execCalculate (target expression : String) (env : Env) : Except RunError Env :=
  execCalculateWith Env.set target expression env

/-- Whether a condition holds. The left side is computed first. -/
def condition (lhs : String) (op : Comparison) (rhs : String) (env : Env) : Except RunError Bool :=
  if isBlankText lhs then .error (.missingOperand .leftHandSide)
  else if isBlankText rhs then .error (.missingOperand .rightHandSide)
  else do
    let a ← blockValue env lhs
    let b ← blockValue env rhs
    return op.holds a b

/-! ## Sequences -/

/-- How a run ended: the environment it left, the blocks it entered in order, and the failure that ended it early. -/
structure Outcome where
  env : Env
  visited : List Path
  failure : Option Failure
deriving DecidableEq

namespace Outcome

/-- The outcome of a single block, as seen from the block itself. -/
def ofEffect (before : Env) : Except RunError Env → Outcome
  | .ok after => ⟨after, [[]], none⟩
  | .error e => ⟨before, [[]], some ⟨[], e⟩⟩

/-- The outcome of a body, as seen from the block that entered it. -/
def entered (o : Outcome) : Outcome := { o with visited := [] :: o.visited }

/-- The outcome of a block, as seen from the sequence in which it has the index `i`. -/
def under (i : Nat) (o : Outcome) : Outcome :=
  { env := o.env
    visited := o.visited.map (i :: ·)
    failure := o.failure.map fun f => { f with path := i :: f.path } }

/-- What `o` visited and then what `later` did and left. -/
def andThen (o later : Outcome) : Outcome := { later with visited := o.visited ++ later.visited }

end Outcome

mutual

/-- Executes one block. Paths are relative to it. -/
def Block.exec (env : Env) : Block → Outcome
  | .declare names => .ofEffect env (execDeclare names env)
  | .assign target literal => .ofEffect env (execAssign target literal env)
  | .calculate target expression => .ofEffect env (execCalculate target expression env)
  | .cond lhs op rhs body =>
    match condition lhs op rhs env with
    | .error e => .ofEffect env (.error e)
    | .ok false => .ofEffect env (.ok env)
    | .ok true => (execFrom 0 env body).entered

/-- Executes blocks in order, the first of which has the index `i`. -/
def Block.execFrom (i : Nat) (env : Env) : List Block → Outcome
  | [] => ⟨env, [], none⟩
  | b :: bs =>
    let o := (b.exec env).under i
    match o.failure with
    | some _ => o
    | none => o.andThen (execFrom (i + 1) o.env bs)

end

/-- Runs blocks against an environment. -/
def run (blocks : List Block) (env : Env) : Outcome := Block.execFrom 0 env blocks

/-- What a run against the empty environment gives: the variables, or the failure alone. -/
def Outcome.result (o : Outcome) : Except Failure Env :=
  match o.failure with
  | none => .ok o.env
  | some f => .error f

end BlockScript
