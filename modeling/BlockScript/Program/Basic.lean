import BlockScript.Block
import BlockScript.Path

/-!
# Programs

A program is its top-level sequence of blocks. `get?` follows a path to a block.
-/

namespace BlockScript

/-- The block that a path leads to from a block; the empty path leads nowhere else. -/
def Block.descend? : Block → Path → Option Block
  | b, [] => some b
  | b, i :: p => do
    let body ← b.body?
    let inner ← body[i]?
    inner.descend? p

/-- A sequence of blocks, with all that is nested in them. -/
structure Program where
  blocks : List Block

namespace Program

def empty : Program := ⟨[]⟩

/-- The number of blocks at the top level. -/
def size (t : Program) : Nat := t.blocks.length

def isEmpty (t : Program) : Bool := t.blocks.isEmpty

/-- The block at a path, if there is one. -/
def get? (t : Program) : Path → Option Block
  | [] => none
  | i :: p => do
    let b ← t.blocks[i]?
    b.descend? p

/-- The program with one more block at the end of its top level. -/
def push (t : Program) (b : Block) : Program := ⟨t.blocks ++ [b]⟩

end Program

end BlockScript
