import BlockScript.Proofs.Acceptance
import BlockScript.Proofs.ExactEvaluation

/-!
# Missing and leftover operands

Whether an operator finds its operands can be told without computing: `depth items k` counts the operands among the
first `k` items and takes off the binary operators, and an operator with a larger arity than that is `Short`. Numerals
with a fraction and failures of arithmetic are the only other things that stop an evaluation, so the first `k` items run
exactly if none of them is short and none is troubled so (`exists_foldlM_take_iff`), and then the stack is as high as
`depth` says.

From this, **missing and leftover operands are found by counting** (`evaluate_decided_by_depth`). An operator that is
short is reported as such whatever it would have computed, also if the one operand it finds is a zero divisor.
-/

namespace BlockScript

/-- How many operands an operator takes. -/
def Operator.arity : Operator → Nat
  | binary _ => 2
  | neg => 1

namespace Item

def isOperand : Item → Bool
  | operand _ => true
  | op _ => false

def isBinary : Item → Bool
  | op (.binary _) => true
  | _ => false

end Item

/-! ## One item -/

theorem Operator.apply_of_lt_arity {o : Operator} {stack : List Value} (h : stack.length < o.arity) :
    o.apply stack = .error (.insufficientOperands o) := by
  match o, stack with
  | .neg, [] => rfl
  | .binary _, [] => rfl
  | .binary _, [_] => rfl
  | .neg, _ :: _ =>
    rw [arity, List.length_cons] at h
    omega
  | .binary _, _ :: _ :: _ =>
    rw [arity, List.length_cons, List.length_cons] at h
    omega

namespace Item

variable {i : Item} {o : Operator} {stack stack' : List Value}

/-- An item runs unless it has a fraction, fails in its arithmetic or misses an operand. -/
theorem run_cases (i : Item) (stack : List Value) :
    (∃ stack', i.run stack = .ok stack') ∨ (∃ numeral, i = .operand (.real numeral)) ∨
      i.Overflows (stack.map Int64.toInt) ∨ i.LacksDivisor (stack.map Int64.toInt) ∨
      ∃ o, i = .op o ∧ stack.length < o.arity := by
  have hruns : ∀ ns, i.Processes (stack.map Int64.toInt) ns → ∃ stack', i.run stack = .ok stack' := fun ns h =>
    (run_of_processes h).imp fun _ => And.left
  match i, stack with
  | .operand (.int v), stack => exact .inl ⟨v :: stack, rfl⟩
  | .operand (.real numeral), _ => exact .inr (.inl ⟨numeral, rfl⟩)
  | .op .neg, [] => exact .inr (.inr (.inr (.inr ⟨.neg, rfl, Nat.zero_lt_one⟩)))
  | .op (.binary p), [] => exact .inr (.inr (.inr (.inr ⟨.binary p, rfl, Nat.zero_lt_two⟩)))
  | .op (.binary p), [_] => exact .inr (.inr (.inr (.inr ⟨.binary p, rfl, Nat.one_lt_two⟩)))
  | .op .neg, b :: rest =>
    by_cases hrange : Value.Fits (-b.toInt)
    · exact .inl (hruns _ (.negate hrange))
    · exact .inr (.inr (.inl (.negate hrange)))
  | .op (.binary p), b :: a :: rest =>
    by_cases hzero : p.DividesByZero b.toInt
    · exact .inr (.inr (.inr (.inl (.join p hzero))))
    · by_cases hrange : p.LeavesRange a.toInt b.toInt
      · exact .inr (.inr (.inl (.join p hzero hrange)))
      · exact .inl (hruns _ (.join p hzero hrange))

/-- An operator is told to miss operands exactly if it does, whatever it finds in their place. -/
theorem run_eq_insufficient_iff :
    i.run stack = .error (.insufficientOperands o) ↔ i = .op o ∧ stack.length < o.arity := by
  constructor
  · intro h
    rcases i.run_cases stack with ⟨stack', hok⟩ | ⟨numeral, rfl⟩ | hrange | hzero | ⟨o', rfl, hlt⟩
    · cases hok.symm.trans h
    · cases h
    · cases (run_eq_overflow_iff.2 hrange).symm.trans h
    · cases (run_eq_divisionByZero_iff.2 hzero).symm.trans h
    · cases (Operator.apply_of_lt_arity hlt).symm.trans h
      exact ⟨rfl, hlt⟩
  · rintro ⟨rfl, hlt⟩
    exact Operator.apply_of_lt_arity hlt

end Item

/-! ## Depth -/

namespace Postfix

variable {items : List Item} {i : Item} {o : Operator} {j k : Nat} {stack : List Value}

/-- The number of operands less the number of binary operators among the first `k` items. -/
def depth (items : List Item) (k : Nat) : Int :=
  (items.take k).countP Item.isOperand - (items.take k).countP Item.isBinary

theorem balance_eq (items : List Item) :
    balance items = (items.countP Item.isOperand : Int) - items.countP Item.isBinary := by
  induction items with
  | nil => rfl
  | cons i items ih =>
    rw [balance_cons, ih, List.countP_cons, List.countP_cons]
    match i with
    | .operand _ | .op .neg | .op (.binary _) =>
      simp only [Item.gain, Operator.gain, Item.isOperand, Item.isBinary, if_true, Bool.false_eq_true, if_false]
      omega

/-- Where the items before an item run, the stack is as high as they say. -/
theorem length_eq_depth (h : (items.take k).foldlM Item.run [] = .ok stack) : (stack.length : Int) = depth items k := by
  have hlength := length_foldlM_run h
  rw [balance_eq] at hlength
  rw [hlength, depth]
  simp

/-- The item at `k` is an operator that takes more operands than the items before it leave. -/
structure Short (items : List Item) (k : Nat) (o : Operator) : Prop where
  item : items[k]? = some (.op o)
  lacks : depth items k < o.arity

/-- Where the items before it run, an operator is short if the stack has fewer values than it takes. -/
theorem short_iff (h : (items.take k).foldlM Item.run [] = .ok stack) :
    Short items k o ↔ items[k]? = some (.op o) ∧ stack.length < o.arity := by
  have hlength := length_eq_depth h
  constructor
  · rintro ⟨hitem, hlacks⟩
    exact ⟨hitem, by omega⟩
  · rintro ⟨hitem, hlt⟩
    exact ⟨hitem, by omega⟩

/-- The operator at `k` is the first one that is short of operands. -/
structure FirstShort (items : List Item) (k : Nat) (o : Operator) : Prop extends Short items k o where
  first : ∀ j < k, ∀ o', ¬ Short items j o'

theorem Short.exists_firstShort (h : Short items k o) : ∃ j o', FirstShort items j o' := by
  induction k using Nat.strongRecOn generalizing o with
  | ind k ih =>
    by_cases hearlier : ∃ j < k, ∃ o', Short items j o'
    · obtain ⟨j, hj, o', h'⟩ := hearlier
      exact ih j hj h'
    · exact ⟨k, o, h, fun j hj o' h' => hearlier ⟨j, hj, o', h'⟩⟩

/-- None of the first `k` items has a fraction or fails in its arithmetic on the integers that the items before it
leave. -/
def Untroubled (items : List Item) (k : Nat) : Prop :=
  ∀ j < k, ∀ i ns, items[j]? = some i → Processed (items.take j) [] ns →
    (∀ numeral, i ≠ .operand (.real numeral)) ∧ ¬ i.Overflows ns ∧ ¬ i.LacksDivisor ns

/-! ## The first items -/

theorem take_succ_of_getElem? (hi : items[k]? = some i) : items.take (k + 1) = items.take k ++ [i] := by
  rw [List.take_add_one, hi]
  rfl

/-- One more item runs, unless it is troubled or short. -/
theorem exists_foldlM_take_succ (h : (items.take k).foldlM Item.run [] = .ok stack) (hshort : ∀ o, ¬ Short items k o)
    (huntroubled : Untroubled items (k + 1)) : ∃ stack', (items.take (k + 1)).foldlM Item.run [] = .ok stack' := by
  cases hi : items[k]? with
  | none =>
    rw [List.take_add_one, hi]
    exact ⟨stack, by simpa using h⟩
  | some i =>
    obtain ⟨hreal, hrange, hzero⟩ := huntroubled k (Nat.lt_succ_self k) i _ hi (processed_of_foldlM h)
    have hrun : ∃ stack', i.run stack = .ok stack' := by
      rcases i.run_cases stack with hok | ⟨numeral, rfl⟩ | hbad | hbad | ⟨o, rfl, hlt⟩
      · exact hok
      · exact absurd rfl (hreal numeral)
      · exact absurd hbad hrange
      · exact absurd hbad hzero
      · exact absurd ((short_iff h).2 ⟨hi, hlt⟩) (hshort o)
    obtain ⟨stack', hstack'⟩ := hrun
    refine ⟨stack', ?_⟩
    rw [take_succ_of_getElem? hi, List.foldlM_append, h]
    change [i].foldlM Item.run stack = _
    rw [List.foldlM_cons, hstack']
    rfl

theorem exists_foldlM_take (hshort : ∀ j < k, ∀ o, ¬ Short items j o) (huntroubled : Untroubled items k) :
    ∃ stack, (items.take k).foldlM Item.run [] = .ok stack := by
  induction k with
  | zero => exact ⟨[], rfl⟩
  | succ k ih =>
    obtain ⟨stack, hstack⟩ := ih (fun j hj => hshort j (Nat.lt_succ_of_lt hj))
      fun j hj => huntroubled j (Nat.lt_succ_of_lt hj)
    exact exists_foldlM_take_succ hstack (hshort k (Nat.lt_succ_self k)) huntroubled

/-- Where the first items run, each of them runs on what the ones before it leave. -/
theorem exists_run_of_foldlM_take (h : (items.take k).foldlM Item.run [] = .ok stack) (hj : j < k)
    (hi : items[j]? = some i) :
    ∃ before after, (items.take j).foldlM Item.run [] = .ok before ∧ i.run before = .ok after := by
  rw [← List.take_append_drop (j + 1) (items.take k), List.take_take, Nat.min_eq_left hj, take_succ_of_getElem? hi,
    List.append_assoc, List.foldlM_append] at h
  obtain ⟨before, hbefore, h⟩ := bind_eq_ok_iff.1 h
  rw [List.singleton_append, List.foldlM_cons] at h
  obtain ⟨after, hafter, -⟩ := bind_eq_ok_iff.1 h
  exact ⟨before, after, hbefore, hafter⟩

theorem not_short_of_foldlM_take (h : (items.take k).foldlM Item.run [] = .ok stack) (hj : j < k) (o : Operator) :
    ¬ Short items j o := by
  intro hshort
  obtain ⟨before, after, hbefore, hrun⟩ := exists_run_of_foldlM_take h hj hshort.item
  have hlt := ((short_iff hbefore).1 hshort).2
  cases (Operator.apply_of_lt_arity hlt).symm.trans hrun

theorem untroubled_of_foldlM_take (h : (items.take k).foldlM Item.run [] = .ok stack) : Untroubled items k := by
  intro j hj i ns hi hns
  obtain ⟨before, after, hbefore, hrun⟩ := exists_run_of_foldlM_take h hj hi
  -- the integers are those of the values on the stack
  have hstart : Processed (items.take j) (([] : List Value).map Int64.toInt) ns := hns
  obtain ⟨before', hbefore', rfl⟩ := foldlM_of_processed hstart
  cases hbefore.symm.trans hbefore'
  refine ⟨?_, fun hrange => ?_, fun hzero => ?_⟩
  · rintro numeral rfl
    cases hrun
  · cases (Item.run_eq_overflow_iff.2 hrange).symm.trans hrun
  · cases (Item.run_eq_divisionByZero_iff.2 hzero).symm.trans hrun

/-- The first items run exactly if none of them is short of operands and none is troubled. -/
theorem exists_foldlM_take_iff : (∃ stack, (items.take k).foldlM Item.run [] = .ok stack) ↔
    (∀ j < k, ∀ o, ¬ Short items j o) ∧ Untroubled items k :=
  ⟨fun ⟨_, h⟩ => ⟨fun _ hj o => not_short_of_foldlM_take h hj o, untroubled_of_foldlM_take h⟩,
    fun ⟨hshort, huntroubled⟩ => exists_foldlM_take hshort huntroubled⟩

/-! ## Evaluation -/

theorem evaluate_eq_insufficient_iff :
    evaluate items = .error (.insufficientOperands o) ↔ ∃ k, FirstShort items k o ∧ Untroubled items k := by
  rw [evaluate_eq_error_iff (by simp), foldlM_run_eq_error_iff]
  constructor
  · rintro ⟨before, i, after, stack, rfl, hbefore, hi⟩
    obtain ⟨rfl, hlt⟩ := Item.run_eq_insufficient_iff.1 hi
    have htake : ((before ++ .op o :: after).take before.length).foldlM Item.run [] = .ok stack := by
      rw [List.take_left]
      exact hbefore
    have hshort : Short (before ++ .op o :: after) before.length o := (short_iff htake).2 ⟨by simp, hlt⟩
    obtain ⟨hfirst, huntroubled⟩ := exists_foldlM_take_iff.1 ⟨stack, htake⟩
    exact ⟨before.length, ⟨hshort, hfirst⟩, huntroubled⟩
  · rintro ⟨k, hshort, huntroubled⟩
    obtain ⟨stack, hstack⟩ := exists_foldlM_take_iff.2 ⟨hshort.first, huntroubled⟩
    obtain ⟨hitem, hlt⟩ := (short_iff hstack).1 hshort.toShort
    obtain ⟨hk, hitem⟩ := List.getElem?_eq_some_iff.1 hitem
    refine ⟨items.take k, .op o, items.drop (k + 1), stack, ?_, hstack, Item.run_eq_insufficient_iff.2 ⟨rfl, hlt⟩⟩
    rw [← hitem, List.getElem_cons_drop, List.take_append_drop]

/-- Once all items have run, any number of values but one is reported. -/
theorem evaluate_eq_malformed (h : items.foldlM Item.run [] = .ok stack) (hne : stack.length ≠ 1) :
    evaluate items = .error (.malformed stack.length) := by
  rw [evaluate, h]
  cases stack with
  | nil => rfl
  | cons v rest =>
    cases rest with
    | nil => exact absurd rfl hne
    | cons w rest => rfl

/-- **Missing and leftover operands are found by counting.** An evaluation reports missing operands exactly for the
first operator that takes more of them than the operands less the binary operators before it, where no numeral with a
fraction and no failure of arithmetic comes first. Where there is no such operator and nothing else fails, this count is
the height of the stack all along; in the end, a count of one means that there is a value, and any other count is
reported. -/
theorem evaluate_decided_by_depth (items : List Item) :
    (∀ o, evaluate items = .error (.insufficientOperands o) ↔ ∃ k, FirstShort items k o ∧ Untroubled items k) ∧
    ((∀ k o, ¬ FirstShort items k o) → Untroubled items items.length →
      (∀ k ≤ items.length, ∃ stack, (items.take k).foldlM Item.run [] = .ok stack ∧
        (stack.length : Int) = depth items k) ∧
      (depth items items.length = 1 → ∃ v, evaluate items = .ok v) ∧
      (depth items items.length ≠ 1 → ∃ remaining : Nat, (remaining : Int) = depth items items.length ∧
        evaluate items = .error (.malformed remaining))) := by
  refine ⟨fun o => evaluate_eq_insufficient_iff, fun hnone huntroubled => ?_⟩
  have hshort : ∀ k o, ¬ Short items k o := by
    intro k o h
    obtain ⟨j, o', hfirst⟩ := h.exists_firstShort
    exact hnone j o' hfirst
  have htake : ∀ k ≤ items.length, ∃ stack, (items.take k).foldlM Item.run [] = .ok stack ∧
      (stack.length : Int) = depth items k := by
    intro k hk
    obtain ⟨stack, hstack⟩ := exists_foldlM_take_iff.2
      ⟨fun j _ => hshort j, fun j hj => huntroubled j (Nat.lt_of_lt_of_le hj hk)⟩
    exact ⟨stack, hstack, length_eq_depth hstack⟩
  obtain ⟨stack, hstack, hlength⟩ := htake items.length (Nat.le_refl _)
  rw [List.take_length] at hstack
  refine ⟨htake, fun hdepth => ?_, fun hdepth => ⟨stack.length, hlength, evaluate_eq_malformed hstack ?_⟩⟩
  · obtain ⟨v, rfl⟩ : ∃ v, stack = [v] := List.length_eq_one_iff.1 (by omega)
    exact ⟨v, evaluate_eq_ok_iff.2 hstack⟩
  · omega

/-- A division that finds its divisor only, which is zero. -/
def loneDivisor : List Item := [.operand (.int 0), .op (.binary .div)]

/-- One operand too many, behind which an operator finds what it takes. -/
def spareOperand : List Item := [.operand (.int 1), .operand (.int 2), .op .neg]

theorem evaluate_decided_by_depth_loneDivisor :
    evaluate loneDivisor = .error (.insufficientOperands (.binary .div)) ∧
      ∃ remaining : Nat, (remaining : Int) = 2 ∧ evaluate spareOperand = .error (.malformed remaining) := by
  constructor
  · have hrun : (loneDivisor.take 1).foldlM Item.run [] = .ok [0] := rfl
    have hshort : Short loneDivisor 1 (.binary .div) := ⟨rfl, by decide⟩
    obtain ⟨hfirst, huntroubled⟩ := exists_foldlM_take_iff.1 ⟨_, hrun⟩
    exact ((evaluate_decided_by_depth loneDivisor).1 _).2 ⟨1, ⟨hshort, hfirst⟩, huntroubled⟩
  · have hrun : (spareOperand.take 3).foldlM Item.run [] = .ok [-2, 1] := by rfl
    obtain ⟨hshort, huntroubled⟩ := exists_foldlM_take_iff.1 ⟨_, hrun⟩
    have hnone : ∀ k o, ¬ FirstShort spareOperand k o := by
      intro k o hfirst
      have hk : k < 3 := (List.getElem?_eq_some_iff.1 hfirst.item).1
      exact hshort k hk o hfirst.toShort
    exact ((evaluate_decided_by_depth spareOperand).2 hnone huntroubled).2.2 (by decide)

end Postfix

end BlockScript
