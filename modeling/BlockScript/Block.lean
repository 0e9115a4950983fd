import BlockScript.Comparison

/-!
# Blocks

A program is a sequence of blocks; a condition block owns a sequence of its own. All text in a block is kept as the
user wrote it, and is looked at only when the block is run.
-/

namespace BlockScript

/-- One step of a program. -/
inductive Block where
  /-- Declares variables. An entry may hold several names, with commas between them. -/
  | declare (names : List String)
  /-- Stores an integer literal. -/
  | assign (target literal : String)
  /-- Stores the value of an expression. -/
  | calculate (target expression : String)
  /-- Runs the blocks of its body if the comparison of two expressions holds. -/
  | cond (lhs : String) (op : Comparison) (rhs : String) (body : List Block)

namespace Block

/-- The four kinds of block. -/
inductive Kind where
  | declare
  | assign
  | calculate
  | cond
deriving DecidableEq

/-- The name of a kind in program files and reports. -/
def Kind.name : Kind → String
  | declare => "declare"
  | assign => "assign"
  | calculate => "calculate"
  | cond => "if"

/-- The kinds in the order in which they are numbered. -/
def Kind.all : List Kind := [.declare, .assign, .calculate, .cond]

def kind : Block → Kind
  | declare _ => .declare
  | assign _ _ => .assign
  | calculate _ _ => .calculate
  | cond _ _ _ _ => .cond

/-- The blocks inside a block, if it is one that can hold any. -/
def body? : Block → Option (List Block)
  | cond _ _ _ body => some body
  | _ => none

/-- The line that shows a block, without its body. -/
def text : Block → String
  | declare names => "declare " ++ ", ".intercalate names
  | assign target literal => s!"set {target} = {literal}"
  | calculate target expression => s!"calc {target} = {expression}"
  | cond lhs op rhs _ => s!"if {lhs} {op.symbol} {rhs}"

mutual

/-- The number of blocks in a block at all levels, itself included. -/
def total : Block → Nat
  | cond _ _ _ body => totalOf body + 1
  | _ => 1

/-- The number of blocks in a sequence at all levels. -/
def totalOf : List Block → Nat
  | [] => 0
  | b :: bs => b.total + totalOf bs

end

end Block

end BlockScript
