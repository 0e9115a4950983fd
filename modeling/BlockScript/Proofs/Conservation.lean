import BlockScript.Proofs.Offences
import Mathlib.Data.List.Count
import Mathlib.Data.List.Forall2

/-!
# Operands and operators are conserved

Each token has a place, which is the tokens before it, and its place and its text tell what it stands for: a number or a
name for an operand (`StandsFor`), and the sign of an operator for that operator, where a minus negates if an operand is
expected (`Place.operator?`). A number that takes up the minus before it leaves one negation less (`Place.isFolded`).

The operators on their way through the stack are all accounted for. Each of the loops that empty the stack lets a front
part of it out as it is (`exists_of_drain`, `exists_of_close?`, `exists_of_flush?`), so a step moves operators from the
stack to the output without losing or making any (`step_conserves`), and **what the conversion lets out has the operands
of the tokens in their order, and each operator as often as tokens stand for it** (`ofTokens_conserves`).
-/

namespace BlockScript

open Text (natural)

/-! ## Tokens in their places -/

/-- The integer that a numeral stands for, read off its characters: the digits at the front, if behind the point there
are zeros only. -/
def Text.integer? (numeral : List Char) : Option Nat :=
  if ((numeral.dropWhile Char.isDigit).drop 1).all (· == '0') then some (natural (numeral.takeWhile Char.isDigit))
  else none

theorem Numeral.integer?_text (n : Numeral) : Text.integer? n.text = n.integer? := by
  have hwhole := Text.all_of_isDigits n.isDigits_whole
  have hstop : ∀ c ∈ n.tail.head?, c.isDigit = false := by
    intro c hc
    unfold tail at hc
    split at hc
    · cases hc
    · cases hc
      rfl
  have hrun : n.text.takeWhile Char.isDigit = n.whole := Lexeme.takeWhile_append_stop hwhole hstop
  have hrest : n.text.dropWhile Char.isDigit = n.tail := by
    have h := List.takeWhile_append_dropWhile (p := Char.isDigit) (l := n.text)
    rw [hrun, text] at h
    exact List.append_cancel_left h
  have hfraction : n.tail.drop 1 = n.fraction := by
    unfold tail
    split
    · simp_all
    · rfl
  rw [Text.integer?, hrun, hrest, hfraction, integer?]

namespace Postfix

/-- A token with the tokens before it. -/
structure Place where
  before : List Token
  token : Token

namespace Place

/-- Whether the token is a number or a name. -/
def isOperand (p : Place) : Bool := p.token.kind == .number || p.token.kind == .name

/-- The operator that the token is the sign of. A minus negates where an operand is expected. -/
def operator? (p : Place) : Option Operator :=
  match p.token.kind with
  | .arith op => some (if op = .sub ∧ operandExpected p.before then .neg else .binary op)
  | _ => none

/-- Whether the token is a numeral for the magnitude of the smallest value, directly behind a minus that negates. -/
def isFolded (p : Place) : Bool :=
  p.token.kind == .number && minusPending p.before && Text.integer? p.token.text.toList == some 9223372036854775808

end Place

/-- The places of tokens that come behind the tokens `before`, from left to right. -/
def placesFrom (before : List Token) : List Token → List Place
  | [] => []
  | t :: ts => ⟨before, t⟩ :: placesFrom (before ++ [t]) ts

def places (ts : List Token) : List Place := placesFrom [] ts

/-- The operand that the token of a place stands for: the integer of a numeral, a numeral with a fraction as it is, the
smallest value for its magnitude directly behind a minus that negates, and the value of a variable. -/
inductive StandsFor (env : Env) : Place → Operand → Prop
  | integer {before : List Token} {n : Numeral} {span : Text.Span} {k : Nat} {v : Value} (hk : n.integer? = some k)
    (hv : v.toInt = k) : StandsFor env ⟨before, .number, .ofList n.text, span⟩ (.int v)
  | fraction {before : List Token} {n : Numeral} {span : Text.Span} (hnone : n.integer? = none) :
    StandsFor env ⟨before, .number, .ofList n.text, span⟩ (.real (.ofList n.text))
  | smallest {before : List Token} {n : Numeral} {span : Text.Span} (hk : n.integer? = some 9223372036854775808)
    (hminus : minusPending before = true) : StandsFor env ⟨before, .number, .ofList n.text, span⟩ (.int Value.smallest)
  | name {before : List Token} {x : String} {span : Text.Span} {v : Value} (hv : env.get? x = some v) :
    StandsFor env ⟨before, .name, x, span⟩ (.int v)

/-- The operands of a postfix sequence, in order. -/
def operands : List Item → List Operand
  | [] => []
  | .operand n :: items => n :: operands items
  | .op _ :: items => operands items

theorem operands_append (items later : List Item) : operands (items ++ later) = operands items ++ operands later := by
  induction items with
  | nil => rfl
  | cons i items ih => cases i <;> simp [operands, ih]

theorem operands_map_op (waiting : List Operator) : operands (waiting.map .op) = [] := by
  induction waiting with
  | nil => rfl
  | cons o waiting ih => exact ih

/-! ## Operators that leave the stack -/

theorem exists_of_drain (op : BinaryOp) (stack : List Pending) :
    ∃ waiting : List Operator,
      (drain op stack).1 = waiting.map .op ∧ stack = waiting.map .op ++ (drain op stack).2 := by
  fun_induction drain op stack with
  | case1 o stack hyields later ih =>
    obtain ⟨waiting, hitems, hstack⟩ := ih
    refine ⟨o :: waiting, by rw [hitems]; rfl, ?_⟩
    rw [List.map_cons, List.cons_append, ← hstack]
  | case2 o stack hyields => exact ⟨[], rfl, rfl⟩
  | case3 stack hstack => exact ⟨[], rfl, rfl⟩

theorem exists_of_close? {stack below : List Pending} {items : List Item} (h : close? stack = some (items, below)) :
    ∃ waiting : List Operator, items = waiting.map .op ∧ stack = waiting.map .op ++ .paren :: below := by
  induction stack generalizing items with
  | nil => cases h
  | cons p stack ih =>
    cases p with
    | paren =>
      cases h
      exact ⟨[], rfl, rfl⟩
    | op o =>
      rw [close?, Option.map_eq_some_iff] at h
      obtain ⟨⟨later, below'⟩, hlater, heq⟩ := h
      cases heq
      obtain ⟨waiting, rfl, rfl⟩ := ih hlater
      exact ⟨o :: waiting, rfl, rfl⟩

theorem exists_of_flush? {stack : List Pending} {items : List Item} (h : flush? stack = some items) :
    ∃ waiting : List Operator, items = waiting.map .op ∧ stack = waiting.map .op := by
  induction stack generalizing items with
  | nil =>
    cases h
    exact ⟨[], rfl, rfl⟩
  | cons p stack ih =>
    cases p with
    | paren => cases h
    | op o =>
      rw [flush?, Option.map_eq_some_iff] at h
      obtain ⟨later, hlater, rfl⟩ := h
      obtain ⟨waiting, rfl, rfl⟩ := ih hlater
      exact ⟨o :: waiting, rfl, rfl⟩

theorem count_map_item (waiting : List Operator) (o : Operator) :
    (waiting.map Item.op).count (.op o) = waiting.count o :=
  List.count_map_of_injective waiting Item.op (fun _ _ h => by cases h; rfl) o

theorem count_map_pending (waiting : List Operator) (o : Operator) :
    (waiting.map Pending.op).count (.op o) = waiting.count o :=
  List.count_map_of_injective waiting Pending.op (fun _ _ h => by cases h; rfl) o

/-! ## One token -/

variable {env : Env} {before ts : List Token} {t : Token} {y y' : Yard} {items : List Item}

/-- What a number becomes, and whether it takes up the minus before it. -/
theorem standsFor_of_ofNumeral? (env : Env) {n : Numeral} {operand : Operand} {absorbs : Bool} (span : Text.Span)
    (h : Operand.ofNumeral? (minusPending before) (.ofList n.text) = some (operand, absorbs)) :
    StandsFor env ⟨before, .number, .ofList n.text, span⟩ operand ∧
      Place.isFolded ⟨before, .number, .ofList n.text, span⟩ = absorbs := by
  have hfolded : Place.isFolded ⟨before, .number, .ofList n.text, span⟩ =
      (minusPending before && n.integer? == some 9223372036854775808) := by
    simp [Place.isFolded, Numeral.integer?_text]
  rw [hfolded]
  cases hoverflows : n.overflows with
  | false =>
    rw [Numeral.ofNumeral?_of_not_overflows _ hoverflows] at h
    cases h
    unfold Numeral.operand
    cases hk : n.integer? with
    | none => exact ⟨.fraction hk, by simp⟩
    | some k =>
      have hlt : k < 9223372036854775808 := by
        rw [← Nat.not_le, ← Numeral.overflows_iff hk, hoverflows]
        decide
      have hv : (Int64.ofNat k).toInt = k := Int64.toInt_ofNat_of_lt (by omega)
      refine ⟨.integer hk hv, ?_⟩
      simp
      omega
  | true =>
    rw [Numeral.ofNumeral?_of_overflows _ hoverflows] at h
    split at h
    · rename_i hminus
      cases h
      exact ⟨.smallest hminus.2 hminus.1, by simp [hminus]⟩
    · cases h

/-- How a step accounts for the token `t` behind the tokens `before`: the operand it stands for goes out, and the
operators that wait and the one it is the sign of go out or wait, but for a negation that a number takes up. -/
structure Conserves (env : Env) (before : List Token) (t : Token) (y : Yard) (items : List Item) (y' : Yard) :
    Prop where
  operands : List.Forall₂ (StandsFor env) ([⟨before, t⟩].filter Place.isOperand) (operands items)
  operators : ∀ o,
    items.count (.op o) + y'.stack.count (.op o) + (if o = .neg ∧ Place.isFolded ⟨before, t⟩ then 1 else 0) =
      y.stack.count (.op o) + if Place.operator? ⟨before, t⟩ = some o then 1 else 0

theorem step_conserves (hy : Stands before y) (ht : t.kind = .number → ∃ n : Numeral, t.text = .ofList n.text)
    (h : step env y t = .ok (items, y')) : Conserves env before t y items y' := by
  obtain ⟨kind, text, span⟩ := t
  cases kind with
  | number =>
    obtain ⟨n, rfl⟩ : ∃ n : Numeral, text = .ofList n.text := ht rfl
    simp only [step, hy.afterNeg] at h
    split at h
    · cases h
    · rename_i operand absorbs hn
      cases h
      obtain ⟨hstands, hfolded⟩ := standsFor_of_ofNumeral? env span hn
      refine ⟨.cons hstands .nil, fun o => ?_⟩
      rw [hfolded]
      cases absorbs with
      | false => simp [Place.operator?]
      | true =>
        obtain ⟨stack, hstack⟩ := hy.marked (hy.afterNeg.trans (afterNeg_of_ofNumeral? hn))
        cases o <;> simp [Place.operator?, hstack]
  | name =>
    simp only [step] at h
    split at h
    · cases h
    · rename_i v hv
      cases h
      exact ⟨.cons (.name hv) .nil, fun o => by simp [Place.operator?, Place.isFolded]⟩
  | openParen =>
    cases h
    exact ⟨.nil, fun o => by simp [Place.operator?, Place.isFolded]⟩
  | closeParen =>
    simp only [step] at h
    split at h
    · cases h
    · rename_i out below hclose
      cases h
      obtain ⟨waiting, rfl, hstack⟩ := exists_of_close? hclose
      refine ⟨by rw [operands_map_op]; exact .nil, fun o => ?_⟩
      simp [Place.operator?, Place.isFolded, hstack, count_map_item, count_map_pending]
  | compare op => cases h
  | arith op =>
    simp only [step] at h
    split at h
    · rename_i hneg
      cases h
      rw [hy.expectsOperand] at hneg
      refine ⟨.nil, fun o => ?_⟩
      cases o <;> simp [Place.operator?, Place.isFolded, hneg]
    · rename_i hbinary
      cases h
      rw [hy.expectsOperand] at hbinary
      obtain ⟨waiting, hitems, hstack⟩ := exists_of_drain op y.stack
      refine ⟨by rw [hitems, operands_map_op]; exact .nil, fun o => ?_⟩
      have hcount := congrArg (List.count (.op o)) hstack
      rw [List.count_append, count_map_pending] at hcount
      rw [hitems, count_map_item, hcount, List.count_cons, Place.operator?]
      simp [Place.isFolded, hbinary]
      omega

/-! ## All tokens -/

/-- Whether the token of a place takes up an operator `o`. -/
def Place.takesUp (o : Operator) (p : Place) : Bool := o == .neg && p.isFolded

/-- From any state of the conversion, the operands of the tokens go out in order, and the operators that wait and those
of the tokens go out, but for the negations that numbers take up. -/
theorem convert_conserves (hy : Stands before y) (hts : WithNumerals ts) (h : convert env y ts = .ok items) :
    List.Forall₂ (StandsFor env) ((placesFrom before ts).filter Place.isOperand) (operands items) ∧
      ∀ o, items.count (.op o) + (placesFrom before ts).countP (Place.takesUp o) =
        y.stack.count (.op o) + (placesFrom before ts).countP fun p => p.operator? = some o := by
  induction ts generalizing before y items with
  | nil =>
    rw [convert] at h
    split at h
    · cases h
    · rename_i last hflush
      cases h
      obtain ⟨waiting, rfl, hstack⟩ := exists_of_flush? hflush
      rw [operands_map_op]
      refine ⟨.nil, fun o => ?_⟩
      simp [placesFrom, hstack, count_map_item, count_map_pending]
  | cons t ts ih =>
    obtain ⟨first, y', later, hstep, hconvert, rfl⟩ := convert_cons_eq_ok h
    have ht : t.kind = .number → ∃ n : Numeral, t.text = .ofList n.text := hts t List.mem_cons_self
    obtain ⟨hoperand, hoperator⟩ := step_conserves hy ht hstep
    obtain ⟨hoperands, hoperators⟩ := ih (hy.step hstep) (fun u hu => hts u (List.mem_cons_of_mem t hu)) hconvert
    constructor
    · rw [placesFrom, ← List.singleton_append, List.filter_append, operands_append]
      exact List.rel_append hoperand hoperands
    · intro o
      have hfirst := hoperator o
      have hlater := hoperators o
      rw [placesFrom, List.countP_cons, List.countP_cons, List.count_append]
      simp only [Place.takesUp, decide_eq_true_eq, Bool.and_eq_true, beq_iff_eq] at hlater ⊢
      omega

/-- **The conversion loses, invents and reorders no operand, and loses and invents no operator.** The operands that it
lets out are those of the numbers and names among the tokens, in their order. Each binary operator goes out as often as
tokens are its sign, and the negation as often as a minus stands where an operand is expected, less one for each number
that takes up its minus. -/
theorem ofTokens_conserves (env : Env) (ts : List Token) (items : List Item) (hts : WithNumerals ts)
    (h : ofTokens env ts = .ok items) :
    List.Forall₂ (StandsFor env) ((places ts).filter Place.isOperand) (operands items) ∧
      (∀ op : BinaryOp, items.count (.op (.binary op)) = (places ts).countP fun p => p.operator? = some (.binary op)) ∧
      items.count (.op .neg) + (places ts).countP Place.isFolded =
        (places ts).countP fun p => p.operator? = some .neg := by
  obtain ⟨hoperands, hoperators⟩ := convert_conserves stands_start hts h
  refine ⟨hoperands, fun op => ?_, ?_⟩
  · have hbinary := hoperators (.binary op)
    have hnone : (placesFrom [] ts).countP (Place.takesUp (.binary op)) = 0 := by
      simp [List.countP_eq_zero, Place.takesUp]
    rw [hnone] at hbinary
    exact hbinary.trans (Nat.zero_add _)
  · have hneg := hoperators .neg
    have hfolded : Place.takesUp .neg = Place.isFolded := by
      funext p
      simp [Place.takesUp]
    rw [hfolded] at hneg
    exact hneg.trans (Nat.zero_add _)

/-- The tokens of `2.50 % -9223372036854775808.0 (x - -1)`, each placed nowhere. -/
def juxtaposition : List Token :=
  [⟨.number, "2.50", ⟨0, 0⟩⟩, ⟨.arith .rem, "%", ⟨0, 0⟩⟩, ⟨.arith .sub, "-", ⟨0, 0⟩⟩,
    ⟨.number, "9223372036854775808.0", ⟨0, 0⟩⟩, ⟨.openParen, "(", ⟨0, 0⟩⟩, ⟨.name, "x", ⟨0, 0⟩⟩,
    ⟨.arith .sub, "-", ⟨0, 0⟩⟩, ⟨.arith .sub, "-", ⟨0, 0⟩⟩, ⟨.number, "1", ⟨0, 0⟩⟩, ⟨.closeParen, ")", ⟨0, 0⟩⟩]

theorem withNumerals_juxtaposition : WithNumerals juxtaposition := by
  intro t ht hkind
  simp only [juxtaposition, List.mem_cons, List.not_mem_nil, or_false] at ht
  rcases ht with rfl | rfl | rfl | rfl | rfl | rfl | rfl | rfl | rfl | rfl <;> try cases hkind
  · exact ⟨⟨['2'], ['5', '0'], by decide, by decide⟩, rfl⟩
  · exact ⟨⟨"9223372036854775808".toList, ['0'], by decide, by decide⟩, rfl⟩
  · exact ⟨⟨['1'], [], by decide, by decide⟩, rfl⟩

/-- Four operands come out of tokens that make no sense, two of them side by side; of the three minus signs one is a
difference, one a negation, and one is taken up by the number behind it. -/
theorem ofTokens_conserves_juxtaposition :
    ∃ items, ofTokens (.ofList [("x", 7)]) juxtaposition = .ok items ∧
      List.Forall₂ (StandsFor (.ofList [("x", 7)])) ((places juxtaposition).filter Place.isOperand)
        [.real "2.50", .int Value.smallest, .int 7, .int 1] ∧
      items.count (.op (.binary .sub)) = 1 ∧ items.count (.op .neg) + 1 = 2 := by
  have hitems : ofTokens (.ofList [("x", 7)]) juxtaposition =
      .ok [.operand (.real "2.50"), .operand (.int Value.smallest), .operand (.int 7), .operand (.int 1), .op .neg,
        .op (.binary .sub), .op (.binary .rem)] := by rfl
  obtain ⟨hoperands, hbinary, hneg⟩ := ofTokens_conserves _ _ _ withNumerals_juxtaposition hitems
  exact ⟨_, hitems, hoperands, hbinary .sub, hneg⟩

end Postfix

end BlockScript
