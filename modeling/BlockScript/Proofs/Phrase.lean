import BlockScript.Proofs.Arithmetic

/-!
# The infix grammar and what its phrases mean

The expressions that a user is meant to write are the phrases of the grammar

    sum     ::= product | sum (+|-) product
    product ::= unary | product (*|/|%) unary
    unary   ::= - unary | atom
    atom    ::= number | name | ( sum )

`Phrase` is the type of its derivation trees, `Phrase.lexemes` what a tree is written with, and `Phrase.meaning` the
result it stands for, computed over the unbounded integers: first all operands are looked at from left to right and the
first bad one decides (`Phrase.fault?`), then the tree is evaluated (`Phrase.value`).
-/

namespace BlockScript

open Text (isDigits)

/-! ## Operands -/

/-- A numeral: one or more digits and, if `fraction` is not empty, a point and more digits. -/
structure Numeral where
  whole : List Char
  fraction : List Char
  isDigits_whole : isDigits whole = true
  all_fraction : fraction.all Char.isDigit = true

namespace Numeral

/-- The point with the digits behind it. -/
def tail (n : Numeral) : List Char := if n.fraction = [] then [] else '.' :: n.fraction

def text (n : Numeral) : List Char := n.whole ++ n.tail

/-- The integer that a numeral stands for, if its fraction is made of zeros only. -/
def integer? (n : Numeral) : Option Nat :=
  if n.fraction.all (· == '0') then some (Text.natural n.whole) else none

/-- Whether a numeral stands for an integer beyond the largest value, 9223372036854775807. -/
def overflows (n : Numeral) : Bool := n.integer?.any (9223372036854775808 ≤ ·)

theorem overflows_iff {n : Numeral} {k : Nat} (h : n.integer? = some k) :
    n.overflows = true ↔ 9223372036854775808 ≤ k := by
  simp [overflows, h]

end Numeral

/-- A name: a letter or an underscore, then letters, digits and underscores. -/
structure Identifier where
  first : Char
  later : List Char
  startsName_first : Lexeme.startsName first = true
  all_later : later.all Lexeme.continuesName = true

def Identifier.text (x : Identifier) : List Char := x.first :: x.later

/-! ## Phrases -/

/-- The kinds of phrase, from the loosest to the tightest. -/
inductive Level where
  | sum
  | product
  | unary
  | atom
deriving DecidableEq

/-- The operators that join the parts of a sum. -/
inductive SumOp where
  | add
  | sub

def SumOp.op : SumOp → BinaryOp
  | add => .add
  | sub => .sub

/-- The operators that join the parts of a product. -/
inductive ProductOp where
  | mul
  | div
  | rem

def ProductOp.op : ProductOp → BinaryOp
  | mul => .mul
  | div => .div
  | rem => .rem

/-- The derivation trees of the grammar, one constructor for each of its productions. -/
inductive Phrase : Level → Type
  | sum (t : Phrase .product) : Phrase .sum
  | sumJoin (e : Phrase .sum) (op : SumOp) (t : Phrase .product) : Phrase .sum
  | product (u : Phrase .unary) : Phrase .product
  | productJoin (t : Phrase .product) (op : ProductOp) (u : Phrase .unary) : Phrase .product
  | neg (u : Phrase .unary) : Phrase .unary
  | unary (a : Phrase .atom) : Phrase .unary
  | number (n : Numeral) : Phrase .atom
  | name (x : Identifier) : Phrase .atom
  | paren (e : Phrase .sum) : Phrase .atom

/-- The lexeme of a binary operator, and of the minus that negates. -/
def Lexeme.arith (op : BinaryOp) : Lexeme := ⟨.arith op, op.symbol.toList⟩

def Lexeme.opening : Lexeme := ⟨.openParen, ['(']⟩

def Lexeme.closing : Lexeme := ⟨.closeParen, [')']⟩

namespace Phrase

variable {l : Level}

/-- The lexemes of a phrase in the order in which they are written. -/
def lexemes : {l : Level} → Phrase l → List Lexeme
  | _, sum t => t.lexemes
  | _, sumJoin e op t => e.lexemes ++ .arith op.op :: t.lexemes
  | _, product u => u.lexemes
  | _, productJoin t op u => t.lexemes ++ .arith op.op :: u.lexemes
  | _, neg u => .arith .sub :: u.lexemes
  | _, unary a => a.lexemes
  | _, number n => [⟨.number, n.text⟩]
  | _, name x => [⟨.name, x.text⟩]
  | _, paren e => .opening :: (e.lexemes ++ [.closing])

/-- The characters of a phrase, without any blanks. -/
def spelling (e : Phrase l) : List Char := e.lexemes.flatMap Lexeme.text

/-- Whether a phrase is nothing but a numeral for the magnitude of the smallest value. -/
def isSmallestMagnitude : {l : Level} → Phrase l → Bool
  | _, unary a => a.isSmallestMagnitude
  | _, number n => n.integer? == some 9223372036854775808
  | _, _ => false

/-- The error of the first bad operand: a name without a value, or a numeral whose integer does not fit. Directly behind
a minus that negates, the magnitude of the smallest value is no bad operand. -/
def fault? (env : Env) : {l : Level} → Phrase l → Option ExprError
  | _, sum t => t.fault? env
  | _, sumJoin e _ t => (e.fault? env).or (t.fault? env)
  | _, product u => u.fault? env
  | _, productJoin t _ u => (t.fault? env).or (u.fault? env)
  | _, neg u => if u.isSmallestMagnitude then none else u.fault? env
  | _, unary a => a.fault? env
  | _, number n => if n.overflows then some .overflow else none
  | _, name x => if (env.get? (.ofList x.text)).isNone then some (.unknownSymbol (.ofList x.text)) else none
  | _, paren e => e.fault? env

/-- The integer a phrase stands for, its left part computed before its right one. -/
def value (env : Env) : {l : Level} → Phrase l → Except ExprError Int
  | _, sum t => t.value env
  | _, sumJoin e op t => do
    let a ← e.value env
    let b ← t.value env
    op.op.checked a b
  | _, product u => u.value env
  | _, productJoin t op u => do
    let a ← t.value env
    let b ← u.value env
    op.op.checked a b
  | _, neg u =>
    if u.isSmallestMagnitude then .ok (-9223372036854775808)
    else do
      let a ← u.value env
      if Value.Fits (-a) then .ok (-a) else .error .overflow
  | _, unary a => a.value env
  | _, number n =>
    match n.integer? with
    | some k => .ok k
    | none => .error (.nonInteger (.ofList n.text))
  | _, name x =>
    match env.get? (.ofList x.text) with
    | some v => .ok v.toInt
    | none => .error (.unknownSymbol (.ofList x.text))
  | _, paren e => e.value env

/-- The result of a phrase: the error of its first bad operand, and its value if all operands are good. -/
def meaning (env : Env) (e : Phrase l) : Except ExprError Int :=
  match e.fault? env with
  | some error => .error error
  | none => e.value env

end Phrase

end BlockScript
