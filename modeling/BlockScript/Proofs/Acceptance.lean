import BlockScript.Proofs.Results
import BlockScript.Proofs.Sentence
import BlockScript.Proofs.Yard
import Mathlib.Control.Monad.Basic

/-!
# Which texts have a value

The conversion never asks whether a token may stand where it stands; a text is refused only if its parentheses do not
match or if the values do not add up in the end. So two numbers decide. `balance` is how many values a postfix sequence
leaves behind, which is one if it can be evaluated (`balance_of_evaluate`), and what the conversion lets out has the
balance that can be read off the kinds of the tokens (`balance_of_convert`), while the parentheses nest.

Where no operand begins right behind another one, this leaves sentences only (`follows_of_load`). Elsewhere it does not:
**a text with a value is a sentence exactly if it has no juxtaposed operands** (`sentence_iff_of_calculate`), and
`1(2)+` is a text with a value that is none (`calculate_juxtaposed`).
-/

namespace BlockScript

open Lexeme (Kind)

/-! ## Values left behind -/

/-- How many more values an operator leaves than it takes. -/
def Operator.gain : Operator → Int
  | binary _ => -1
  | neg => 0

/-- How many more values an item leaves than it takes. -/
def Item.gain : Item → Int
  | operand _ => 1
  | op o => o.gain

namespace Postfix

/-- How many more values a sequence leaves than it takes. -/
def balance : List Item → Int
  | [] => 0
  | i :: items => i.gain + balance items

@[simp]
theorem balance_nil : balance [] = 0 := rfl

@[simp]
theorem balance_cons (i : Item) (items : List Item) : balance (i :: items) = i.gain + balance items := rfl

@[simp]
theorem balance_append (items later : List Item) : balance (items ++ later) = balance items + balance later := by
  induction items with
  | nil => simp
  | cons i items ih => simp [ih, Int.add_assoc]

end Postfix

theorem Operator.length_apply {o : Operator} {stack stack' : List Value} (h : o.apply stack = .ok stack') :
    (stack'.length : Int) = stack.length + o.gain := by
  fun_cases Operator.apply o stack with
  | case1 b stack =>
    rw [Operator.apply] at h
    obtain ⟨v, -, hpush⟩ := bind_eq_ok_iff.1 h
    cases hpush
    simp [gain]
  | case2 op b a stack =>
    rw [Operator.apply] at h
    obtain ⟨v, -, hpush⟩ := bind_eq_ok_iff.1 h
    cases hpush
    rw [List.length_cons, List.length_cons, List.length_cons, gain]
    omega
  | case3 o stack hneg hbinary =>
    rw [Operator.apply] at h
    · cases h
    · exact hneg
    · exact hbinary

theorem Item.length_run {i : Item} {stack stack' : List Value} (h : i.run stack = .ok stack') :
    (stack'.length : Int) = stack.length + i.gain := by
  cases i with
  | op o => exact Operator.length_apply h
  | operand n =>
    cases n with
    | int v => cases h; rfl
    | real numeral => cases h

namespace Postfix

theorem length_foldlM_run {items : List Item} {stack stack' : List Value}
    (h : items.foldlM Item.run stack = .ok stack') : (stack'.length : Int) = stack.length + balance items := by
  induction items generalizing stack with
  | nil => cases h; simp
  | cons i items ih =>
    rw [List.foldlM_cons] at h
    obtain ⟨next, hi, hitems⟩ := bind_eq_ok_iff.1 h
    have hlater := ih hitems
    have hfirst := Item.length_run hi
    rw [balance_cons]
    omega

theorem balance_of_evaluate {items : List Item} {v : Value} (h : evaluate items = .ok v) : balance items = 1 := by
  rw [evaluate] at h
  obtain ⟨stack, hs, hleft⟩ := bind_eq_ok_iff.1 h
  have hlength := length_foldlM_run hs
  match stack, hleft with
  | [_], _ => simpa using hlength.symm

/-! ## What waits on the stack -/

/-- How many more values the waiting operators will leave than they will take. -/
def owed : List Pending → Int
  | [] => 0
  | .op o :: stack => o.gain + owed stack
  | .paren :: stack => owed stack

/-- How many parentheses wait. -/
def opens : List Pending → Nat
  | [] => 0
  | .op _ :: stack => opens stack
  | .paren :: stack => opens stack + 1

theorem drain_counts (op : BinaryOp) (stack : List Pending) :
    balance (drain op stack).1 + owed (drain op stack).2 = owed stack ∧ opens (drain op stack).2 = opens stack := by
  fun_induction drain op stack with
  | case1 o stack hyields later ih =>
    refine ⟨?_, ih.2⟩
    rw [balance_cons, Item.gain, owed, Int.add_assoc, ih.1]
  | case2 o stack hyields => exact ⟨Int.zero_add _, rfl⟩
  | case3 stack hstack => exact ⟨Int.zero_add _, rfl⟩

theorem close?_counts {stack below : List Pending} {items : List Item} (h : close? stack = some (items, below)) :
    balance items + owed below = owed stack ∧ opens stack = opens below + 1 := by
  induction stack generalizing items with
  | nil => cases h
  | cons p stack ih =>
    cases p with
    | paren => cases h; exact ⟨Int.zero_add _, rfl⟩
    | op o =>
      rw [close?, Option.map_eq_some_iff] at h
      obtain ⟨⟨later, below'⟩, hlater, heq⟩ := h
      cases heq
      obtain ⟨hbalance, hopens⟩ := ih hlater
      refine ⟨?_, hopens⟩
      rw [balance_cons, Item.gain, owed, Int.add_assoc, hbalance]

theorem flush?_counts {stack : List Pending} {items : List Item} (h : flush? stack = some items) :
    balance items = owed stack ∧ opens stack = 0 := by
  induction stack generalizing items with
  | nil => cases h; exact ⟨rfl, rfl⟩
  | cons p stack ih =>
    cases p with
    | paren => cases h
    | op o =>
      rw [flush?, Option.map_eq_some_iff] at h
      obtain ⟨later, hlater, rfl⟩ := h
      obtain ⟨hbalance, hopens⟩ := ih hlater
      exact ⟨by rw [balance_cons, Item.gain, owed, hbalance], hopens⟩

/-- A minus that has just been read as a negation is on top of the stack. -/
def Yard.Marked (y : Yard) : Prop := y.afterNeg = true → ∃ stack, y.stack = .op .neg :: stack

theorem Yard.Marked.owed_tail {y : Yard} (h : y.Marked) (hneg : y.afterNeg = true) :
    owed y.stack.tail = owed y.stack ∧ opens y.stack.tail = opens y.stack := by
  obtain ⟨stack, hstack⟩ := h hneg
  rw [hstack]
  exact ⟨(Int.zero_add _).symm, rfl⟩

end Postfix

/-! ## Counting kinds -/

/-- How many more values a lexeme stands for than it takes. A minus where an operand is expected takes one and leaves
one. -/
def Lexeme.Kind.weight (expectsOperand : Bool) : Kind → Int
  | .number | .name => 1
  | .arith op => if op = .sub ∧ expectsOperand then 0 else -1
  | _ => 0

/-- How many more values the kinds stand for than they take. -/
def load : (expectsOperand : Bool) → List Kind → Int
  | _, [] => 0
  | expectsOperand, k :: ks => k.weight expectsOperand + load (!k.endsOperand) ks

/-- Whether the parentheses match, `depth` of them being open before, and no comparison occurs. -/
def nests : (depth : Nat) → List Kind → Bool
  | depth, [] => depth == 0
  | depth, .openParen :: ks => nests (depth + 1) ks
  | depth + 1, .closeParen :: ks => nests depth ks
  | 0, .closeParen :: _ => false
  | _, .compare _ :: _ => false
  | depth, _ :: ks => nests depth ks

namespace Postfix

variable {env : Env} {y y' : Yard} {t : Token} {items : List Item}

/-- What a step does to the counts when it takes in a token of kind `k`. -/
structure Counts (y : Yard) (k : Kind) (items : List Item) (y' : Yard) : Prop where
  marked : y'.Marked
  expectsOperand : y'.expectsOperand = !k.endsOperand
  balance : balance items + owed y'.stack = k.weight y.expectsOperand + owed y.stack
  nests : ∀ ks, nests (opens y.stack) (k :: ks) = nests (opens y'.stack) ks

/-- A number that takes the minus before it into itself stands behind a minus that negates. -/
theorem afterNeg_of_ofNumeral? {negated : Bool} {numeral : String} {n : Operand}
    (h : Operand.ofNumeral? negated numeral = some (n, true)) : negated = true := by
  rw [Operand.ofNumeral?] at h
  split at h
  · cases h
  · split at h
    · cases h
    · split at h
      · rename_i hneg
        exact hneg.1
      · cases h

theorem step_counts (hy : y.Marked) (h : step env y t = .ok (items, y')) : Counts y t.kind items y' := by
  obtain ⟨kind, text, span⟩ := t
  cases kind with
  | number =>
    simp only [step] at h
    split at h
    · cases h
    · rename_i n absorbs hn
      cases h
      cases absorbs with
      | false => exact ⟨nofun, rfl, rfl, fun _ => rfl⟩
      | true =>
        obtain ⟨howed, hopens⟩ := hy.owed_tail (afterNeg_of_ofNumeral? hn)
        refine ⟨nofun, rfl, ?_, fun ks => ?_⟩
        · change 1 + 0 + owed y.stack.tail = 1 + owed y.stack
          rw [howed, Int.add_zero]
        · change BlockScript.nests (opens y.stack) ks = BlockScript.nests (opens y.stack.tail) ks
          rw [hopens]
  | name =>
    simp only [step] at h
    split at h
    · cases h
    · cases h
      exact ⟨nofun, rfl, rfl, fun _ => rfl⟩
  | openParen =>
    cases h
    exact ⟨nofun, rfl, rfl, fun _ => rfl⟩
  | closeParen =>
    simp only [step] at h
    split at h
    · cases h
    · rename_i out below hclose
      cases h
      obtain ⟨hbalance, hopens⟩ := close?_counts hclose
      refine ⟨nofun, rfl, ?_, fun ks => ?_⟩
      · rw [hbalance]
        exact (Int.zero_add _).symm
      · rw [hopens]
        rfl
  | compare op => cases h
  | arith op =>
    simp only [step] at h
    split at h
    · rename_i hneg
      cases h
      refine ⟨fun _ => ⟨y.stack, rfl⟩, rfl, ?_, fun _ => rfl⟩
      rw [Kind.weight, if_pos hneg]
      change 0 + (0 + owed y.stack) = 0 + owed y.stack
      rw [Int.zero_add]
    · rename_i hbinary
      cases h
      obtain ⟨hbalance, hopens⟩ := drain_counts op y.stack
      refine ⟨nofun, rfl, ?_, fun ks => ?_⟩
      · rw [Kind.weight, if_neg hbinary, ← hbalance, owed, Operator.gain]
        omega
      · change BlockScript.nests (opens y.stack) ks = BlockScript.nests (opens (drain op y.stack).2) ks
        rw [hopens]

theorem convert_cons_eq_ok {ts : List Token} (h : convert env y (t :: ts) = .ok items) :
    ∃ first y' later, step env y t = .ok (first, y') ∧ convert env y' ts = .ok later ∧ items = first ++ later := by
  rw [convert] at h
  obtain ⟨⟨first, y'⟩, hs, h⟩ := bind_eq_ok_iff.1 h
  obtain ⟨later, hc, hitems⟩ := bind_eq_ok_iff.1 h
  cases hitems
  exact ⟨first, y', later, hs, hc, rfl⟩

/-- What the conversion lets out has the balance that the kinds and the waiting operators have together. -/
theorem balance_of_convert {ts : List Token} (hy : y.Marked) (h : convert env y ts = .ok items) :
    balance items = load y.expectsOperand (ts.map Token.kind) + owed y.stack ∧
      BlockScript.nests (opens y.stack) (ts.map Token.kind) = true := by
  induction ts generalizing y items with
  | nil =>
    rw [convert] at h
    split at h
    · cases h
    · rename_i last hflush
      cases h
      obtain ⟨hbalance, hopens⟩ := flush?_counts hflush
      rw [hbalance, hopens]
      exact ⟨(Int.zero_add _).symm, rfl⟩
  | cons t ts ih =>
    obtain ⟨first, y', later, hstep, hconvert, rfl⟩ := convert_cons_eq_ok h
    have hcounts := step_counts hy hstep
    obtain ⟨hlater, hnests⟩ := ih hcounts.marked hconvert
    have hfirst := hcounts.balance
    rw [hcounts.expectsOperand] at hlater
    rw [balance_append, List.map_cons, load, hcounts.nests]
    exact ⟨by omega, hnests⟩

end Postfix

/-! ## Sentences by counting -/

/-- Where operands are apart, the kinds stand for one value at most, or for none at most behind an operand, and for as
many only if they may follow there. -/
theorem follows_of_load {q : Bool} {depth : Nat} {ks : List Kind} (hapart : Apart q ks)
    (hnests : nests depth ks = true) : load q ks ≤ q.toNat ∧ (load q ks = q.toNat → follows q depth ks = true) := by
  induction ks generalizing q depth with
  | nil =>
    cases q with
    | true => exact ⟨by decide, nofun⟩
    | false => exact ⟨by decide, fun _ => hnests⟩
  | cons k ks ih =>
    obtain ⟨hq, hlater⟩ := apart_cons.1 hapart
    cases k with
    | number | name =>
      obtain rfl := hq rfl
      obtain ⟨hle, heq⟩ : load false ks ≤ 0 ∧ (load false ks = 0 → follows false depth ks = true) := ih hlater hnests
      change 1 + load false ks ≤ 1 ∧ (1 + load false ks = 1 → follows false depth ks = true)
      exact ⟨by omega, fun h => heq (by omega)⟩
    | openParen =>
      obtain rfl := hq rfl
      obtain ⟨hle, heq⟩ : load true ks ≤ 1 ∧ (load true ks = 1 → follows true (depth + 1) ks = true) := ih hlater hnests
      change 0 + load true ks ≤ 1 ∧ (0 + load true ks = 1 → follows true (depth + 1) ks = true)
      exact ⟨by omega, fun h => heq (by omega)⟩
    | compare op => cases hnests
    | closeParen =>
      cases depth with
      | zero => cases hnests
      | succ depth =>
        obtain ⟨hle, heq⟩ : load false ks ≤ 0 ∧ (load false ks = 0 → follows false depth ks = true) := ih hlater hnests
        cases q with
        | true =>
          change 0 + load false ks ≤ 1 ∧ (0 + load false ks = 1 → _)
          exact ⟨by omega, fun h => absurd h (by omega)⟩
        | false =>
          change 0 + load false ks ≤ 0 ∧ (0 + load false ks = 0 → follows false depth ks = true)
          exact ⟨by omega, fun h => heq (by omega)⟩
    | arith op =>
      obtain ⟨hle, heq⟩ : load true ks ≤ 1 ∧ (load true ks = 1 → follows true depth ks = true) := ih hlater hnests
      by_cases hneg : op = .sub ∧ q = true
      · obtain ⟨rfl, rfl⟩ := hneg
        change 0 + load true ks ≤ 1 ∧ (0 + load true ks = 1 → follows true depth ks = true)
        exact ⟨by omega, fun h => heq (by omega)⟩
      · have hload : load q (.arith op :: ks) = -1 + load true ks := by
          rw [load, Kind.weight, if_neg hneg]
          rfl
        rw [hload]
        cases q with
        | true =>
          change -1 + load true ks ≤ 1 ∧ (-1 + load true ks = 1 → _)
          exact ⟨by omega, fun h => absurd h (by omega)⟩
        | false =>
          rw [follows]
          change -1 + load true ks ≤ 0 ∧ (-1 + load true ks = 0 → _)
          exact ⟨by omega, fun h => heq (by omega)⟩

theorem calculate_eq_ok {env : Env} {source : String} {v : Value} (h : calculate env source = .ok v) :
    ∃ ts items, Token.scan source = .ok ts ∧ Postfix.ofTokens env ts = .ok items ∧ Postfix.evaluate items = .ok v := by
  rw [calculate] at h
  obtain ⟨ts, hs, h⟩ := bind_eq_ok_iff.1 h
  obtain ⟨items, ht, hv⟩ := bind_eq_ok_iff.1 h
  exact ⟨ts, items, hs, ht, hv⟩

/-- **A text with a value is a sentence of the grammar exactly if it has no juxtaposed operands.** -/
theorem sentence_iff_of_calculate (env : Env) (source : String) (v : Value) (h : calculate env source = .ok v) :
    ∃ ts, Token.scan source = .ok ts ∧
      (Sentence (ts.map Token.kind) ↔ ¬ Juxtaposed (ts.map Token.kind)) := by
  obtain ⟨ts, items, hscan, hitems, hv⟩ := calculate_eq_ok h
  refine ⟨ts, hscan, ?_, ?_⟩
  · intro hsentence
    exact (apart_of_follows (sentence_iff_follows.1 hsentence)).2
  · intro hjuxtaposed
    have hstart : Postfix.Yard.start.Marked := nofun
    obtain ⟨hbalance, hnests⟩ := Postfix.balance_of_convert hstart hitems
    have hload : load true (ts.map Token.kind) = 1 := by
      have hone := Postfix.balance_of_evaluate hv
      rw [hbalance] at hone
      exact (Int.add_zero _).symm.trans hone
    have hapart : Apart true (ts.map Token.kind) := ⟨fun _ _ _ => rfl, hjuxtaposed⟩
    exact sentence_iff_follows.2 ((follows_of_load hapart hnests).2 hload)

theorem sentence_iff_of_calculate_paren :
    calculate (.ofList [("rate", 5)]) "-rate * (3 + 4)" = .ok (-35) ∧ ∃ ts, Token.scan "-rate * (3 + 4)" = .ok ts ∧
      (Sentence (ts.map Token.kind) ↔ ¬ Juxtaposed (ts.map Token.kind)) :=
  have h : calculate (.ofList [("rate", 5)]) "-rate * (3 + 4)" = .ok (-35) := by decide +kernel
  ⟨h, sentence_iff_of_calculate _ _ _ h⟩

/-- The operator behind both values joins them, so that `1(2)+` has the value 3. -/
theorem calculate_juxtaposed :
    calculate .empty "1(2)+" = .ok 3 ∧
      (Token.scan "1(2)+").map (·.map Token.kind) =
        .ok [.number, .openParen, .number, .closeParen, .arith .add] ∧
      ¬ Sentence [.number, .openParen, .number, .closeParen, .arith .add] :=
  ⟨by decide +kernel, by decide +kernel, by decide⟩

end BlockScript
