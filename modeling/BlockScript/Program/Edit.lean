import BlockScript.Diagnostic
import BlockScript.Program.Basic

/-!
# Editing a program

`insert`, `remove` and `move` change the program in place and may fail. A move takes its block out before it puts it
in elsewhere; if that fails, the block goes back to where it was.
-/

namespace BlockScript

/-- Why an edit does not fit the program. -/
inductive TreeError where
  | invalidPath (path : Path)
  | notAContainer (path : Path)
  | intoOwnSubtree (source target : Path)
deriving DecidableEq

/-- What is told about an edit that does not fit. -/
def TreeError.diagnostic : TreeError → Diagnostic
  | invalidPath path =>
    { kind := "invalid_path", message := s!"No block at {path.text}", code := "tree::invalid_path" }
  | notAContainer path =>
    { kind := "not_a_container"
      message := s!"Block {path.text} cannot contain other blocks"
      code := "tree::not_a_container"
      help := some "only condition blocks have a body" }
  | intoOwnSubtree source target =>
    { kind := "into_own_subtree"
      message := s!"Cannot move block {source.text} into its own body at {target.text}"
      code := "tree::into_own_subtree" }

/-- Changes the sequence at the end of `path`, which starts in `blocks`. The sequence is `parent` to the user. -/
def Block.editSequence {α : Type} (parent : Path) (edit : List Block → Except TreeError (α × List Block)) :
    Path → List Block → Except TreeError (α × List Block)
  | [], blocks => edit blocks
  | i :: path, blocks =>
    match blocks[i]? with
    | some (.cond lhs op rhs body) => do
      let (a, body) ← editSequence parent edit path body
      return (a, blocks.set i (.cond lhs op rhs body))
    | some _ => .error (if path = [] then .notAContainer parent else .invalidPath parent)
    | none => .error (.invalidPath parent)

namespace Program

/-- A change to a program, with an answer or an error. -/
abbrev Edit := ExceptT TreeError (StateM Program)

/-- The edit that changes the sequence a path ends in, given the index there. If `edit` fails, nothing changes. -/
def editAt {α : Type} (path : Path) (edit : Nat → List Block → Except TreeError (α × List Block)) : Edit α := do
  match path.splitLast? with
  | none => throw (.invalidPath path)
  | some (parent, index) =>
    match Block.editSequence parent (edit index) parent (← get).blocks with
    | .error e => throw e
    | .ok (a, blocks) =>
      set (Program.mk blocks)
      return a

/-- Puts a block before the one at `path`, or at the end of the sequence if the index is its length. -/
def insert (path : Path) (b : Block) : Edit Unit :=
  editAt path fun index blocks =>
    if index ≤ blocks.length then .ok ((), blocks.insertIdx index b) else .error (.invalidPath path)

/-- Takes out the block at `path`. -/
def remove (path : Path) : Edit Block :=
  editAt path fun index blocks =>
    match blocks[index]? with
    | some b => .ok (b, blocks.eraseIdx index)
    | none => .error (.invalidPath path)

/-- Puts another block in the place of the one at `path`, and says whether there was one. -/
def replace (path : Path) (b : Block) : StateM Program Bool := do
  let done ← (editAt path fun index blocks =>
    if index < blocks.length then .ok ((), blocks.set index b) else .error (.invalidPath path)).run
  return done.toBool

/-- Moves the block at `source` so that it stands before the block now at `target`. If that cannot be, the program is
left as it was. -/
def move (source target : Path) : Edit Unit := do
  if target.isInside source then
    throw (.intoOwnSubtree source target)
  let b ← remove source
  tryCatch (insert (target.afterRemoval source) b) fun e => do
    insert source b
    throw e

end Program

end BlockScript
