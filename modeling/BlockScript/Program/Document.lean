import BlockScript.Data
import BlockScript.Program.Basic

/-!
# Programs as documents

A block is written as a record with its kind and its fields. When a document is read, a block may also be a list with
the kind first and the fields in order, a single name may stand for a list of names, and the body of a condition may be
left out. A record may hold members that no field asks for.
-/

namespace BlockScript

/-! ## Writing -/

mutual

/-- The document of a block. -/
def Block.toData : Block → Data
  | .declare names => .record [("kind", .text Kind.declare.name), ("names", .ofTexts names)]
  | .assign target literal =>
    .record [("kind", .text Kind.assign.name), ("target", .text target), ("literal", .text literal)]
  | .calculate target expression =>
    .record [("kind", .text Kind.calculate.name), ("target", .text target), ("expression", .text expression)]
  | .cond lhs op rhs body =>
    .record [("kind", .text Kind.cond.name), ("lhs", .text lhs), ("op", .text op.symbol), ("rhs", .text rhs),
      ("body", .list (sequenceToData body))]

def Block.sequenceToData : List Block → List Data
  | [] => []
  | b :: bs => b.toData :: sequenceToData bs

end

/-- The document of a program. -/
def Program.toData (t : Program) : Data := .record [("blocks", .list (Block.sequenceToData t.blocks))]

/-! ## Reading fields -/

namespace Data

/-- The value of the member with a name that must come exactly once. -/
def only? {α : Type} (name : String) (members : List (String × α)) : Option α :=
  match members.filter (·.1 == name) with
  | [(_, x)] => some x
  | _ => none

/-- The value of the member with a name that must not come twice. -/
def optional? {α : Type} (name : String) (members : List (String × α)) : Option (Option α) :=
  match members.filter (·.1 == name) with
  | [] => some none
  | [(_, x)] => some (some x)
  | _ => none

def text? : Data → Option String
  | text s => some s
  | _ => none

/-- One name, or a list of names. -/
def names? : Data → Option (List String)
  | text s => some [s]
  | list items => items.mapM text?
  | _ => none

/-- A comparison: its symbol, or a record with the symbol as the name of its only member, which holds nothing. -/
def comparison? : Data → Option Comparison
  | text s => Comparison.ofSymbol? s
  | record [(s, null)] => Comparison.ofSymbol? s
  | record [(s, record [])] => Comparison.ofSymbol? s
  | _ => none

/-- A kind of block: its name, or its number where kinds may be numbered. -/
def kind? (numbered : Bool) : Data → Option Block.Kind
  | text s => Block.Kind.all.find? (·.name == s)
  | number numeral =>
    if numbered then ["0", "1", "2", "3"].zip Block.Kind.all |>.lookup numeral else none
  | _ => none

end Data

/-! ## Reading blocks -/

/-- A part of a block's document: the value itself, and what it reads as if it is the body of a condition. -/
structure BlockPart where
  value : Data
  body? : Option (List Block)

namespace Block

/-- The block of a kind whose fields are members of a record. -/
def ofMembers? (kind : Kind) (members : List (String × BlockPart)) : Option Block := do
  let field (name : String) : Option Data := (Data.only? name members).map (·.value)
  match kind with
  | .declare => return declare (← (← field "names").names?)
  | .assign => return assign (← (← field "target").text?) (← (← field "literal").text?)
  | .calculate => return calculate (← (← field "target").text?) (← (← field "expression").text?)
  | .cond =>
    let body ← match ← Data.optional? "body" members with
      | none => some []
      | some part => part.body?
    return cond (← (← field "lhs").text?) (← (← field "op").comparison?) (← (← field "rhs").text?) body

/-- The block of a kind whose fields come in order. -/
def ofParts? : Kind → List BlockPart → Option Block
  | .declare, [names] => return declare (← names.value.names?)
  | .assign, [target, literal] => return assign (← target.value.text?) (← literal.value.text?)
  | .calculate, [target, expression] => return calculate (← target.value.text?) (← expression.value.text?)
  | .cond, lhs :: op :: rhs :: rest => do
    let body ← match rest with
      | [] => some []
      | [part] => part.body?
      | _ => none
    return cond (← lhs.value.text?) (← op.value.comparison?) (← rhs.value.text?) body
  | _, _ => none

mutual

/-- Reads a block. Its kind may be a number if `numbered` is true, and kinds in a body if `numberedBelow` is. -/
def ofData? (numbered numberedBelow : Bool) : Data → Option Block
  | .record members => do
    let parts := memberParts numberedBelow members
    let kind ← (← Data.only? "kind" parts).value.kind? numbered
    ofMembers? kind parts
  | .list items =>
    match itemParts numberedBelow items with
    | [] => none
    | first :: rest => do
      let kind ← first.value.kind? numbered
      ofParts? kind rest
  | _ => none

/-- Reads the blocks of a sequence. -/
def ofItems? (numbered numberedBelow : Bool) : List Data → Option (List Block)
  | [] => some []
  | d :: ds => do
    let b ← ofData? numbered numberedBelow d
    let bs ← ofItems? numbered numberedBelow ds
    return b :: bs

/-- Reads the body of a condition. -/
def bodyOfData? (numbered : Bool) : Data → Option (List Block)
  | .list items => ofItems? numbered numbered items
  | _ => none

def itemParts (numbered : Bool) : List Data → List BlockPart
  | [] => []
  | d :: ds => ⟨d, bodyOfData? numbered d⟩ :: itemParts numbered ds

def memberParts (numbered : Bool) : List (String × Data) → List (String × BlockPart)
  | [] => []
  | (name, d) :: ms => (name, ⟨d, bodyOfData? numbered d⟩) :: memberParts numbered ms

end

end Block

/-- Reads the sequence of blocks of a program. `numberedBodies` says whether kinds may be numbers inside a body. -/
def Program.ofBlocks? (numberedBodies : Bool) : Data → Option Program
  | .list items => (Block.ofItems? false numberedBodies items).map Program.mk
  | _ => none

end BlockScript
