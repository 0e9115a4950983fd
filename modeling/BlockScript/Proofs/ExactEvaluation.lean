import BlockScript.Proofs.Arithmetic
import BlockScript.Proofs.Results

/-!
# Postfix sequences over the integers

What the evaluation of a postfix sequence does to 64-bit values, told over the unbounded integers. `Item.Processes` says
which items can be worked off and what they make of a stack of integers; the two ways in which arithmetic keeps an item
from being worked off are `Item.Overflows` and `Item.LacksDivisor`. Running an item on values follows these rules
(`Item.processes_of_run`, `Item.run_of_processes`, `Item.run_eq_overflow_iff`, `Item.run_eq_divisionByZero_iff`), so
that **a value is the exact result, and an error of arithmetic tells what is wrong with the first item that cannot be
worked off** (`Postfix.evaluate_exact`).
-/

namespace BlockScript

open ExprError (orOverflow)

/-! ## Results as integers -/

section Results

variable {r : Except ExprError Value}

theorem eq_ok_iff_map_toInt {v : Value} : r = .ok v ↔ r.map Int64.toInt = .ok v.toInt := by
  cases r with
  | error e => exact ⟨nofun, nofun⟩
  | ok w =>
    change Except.ok w = .ok v ↔ Except.ok w.toInt = .ok v.toInt
    rw [Except.ok.injEq, Except.ok.injEq, Int64.toInt_inj]

end Results

/-! ## Operators -/

namespace Value

variable {a v : Value}

theorem exists_toInt_eq {n : Int} (h : Fits n) : ∃ v : Value, v.toInt = n :=
  ⟨Int64.ofInt n, Int64.toInt_ofInt_of_le h.1 h.2⟩

theorem neg?_eq_ok_iff : orOverflow (neg? a) = .ok v ↔ Fits (-a.toInt) ∧ v.toInt = -a.toInt := by
  rw [eq_ok_iff_map_toInt, toInt_neg?]
  by_cases h : Fits (-a.toInt)
  · rw [if_pos h, Except.ok.injEq, eq_comm, and_iff_right h]
  · rw [if_neg h]
    exact iff_of_false (by simp) fun hv => h hv.1

theorem neg?_eq_error_iff {e : ExprError} : orOverflow (neg? a) = .error e ↔ ¬ Fits (-a.toInt) ∧ e = .overflow := by
  rw [← map_eq_error_iff (f := Int64.toInt), toInt_neg?]
  by_cases h : Fits (-a.toInt)
  · rw [if_pos h]
    exact iff_of_false (by simp) fun he => he.1 h
  · rw [if_neg h, Except.error.injEq, eq_comm, and_iff_right h]

end Value

namespace BinaryOp

variable {op : BinaryOp} {a b v : Value}

/-- A quotient or a remainder by zero is asked for. -/
def DividesByZero (op : BinaryOp) (b : Int) : Prop := op.divides = true ∧ b = 0

/-- The exact result is no value, or a remainder is asked for where the quotient is no value. -/
def LeavesRange (op : BinaryOp) (a b : Int) : Prop :=
  ¬ Value.Fits (op.exact a b) ∨ (op = .rem ∧ a = -9223372036854775808 ∧ b = -1)

theorem fits_of_not_leavesRange {m n : Int} (h : ¬ op.LeavesRange m n) : Value.Fits (op.exact m n) :=
  Classical.not_not.1 fun hf => h (Or.inl hf)

theorem checked_of_dividesByZero {m n : Int} (hzero : op.DividesByZero n) :
    op.checked m n = .error .divisionByZero := by
  rw [DividesByZero] at hzero
  rw [checked, if_pos hzero]

theorem checked_of_leavesRange {m n : Int} (hzero : ¬ op.DividesByZero n) (hrange : op.LeavesRange m n) :
    op.checked m n = .error .overflow := by
  rw [DividesByZero] at hzero
  rw [LeavesRange] at hrange
  rw [checked, if_neg hzero, if_pos hrange]

theorem checked_eq_ok {m n : Int} (hzero : ¬ op.DividesByZero n) (hrange : ¬ op.LeavesRange m n) :
    op.checked m n = .ok (op.exact m n) := by
  rw [DividesByZero] at hzero
  rw [LeavesRange] at hrange
  rw [checked, if_neg hzero, if_neg hrange]

theorem apply_eq_ok_iff : op.apply a b = .ok v ↔
    ¬ op.DividesByZero b.toInt ∧ ¬ op.LeavesRange a.toInt b.toInt ∧ v.toInt = op.exact a.toInt b.toInt := by
  rw [eq_ok_iff_map_toInt, toInt_apply]
  by_cases hzero : op.DividesByZero b.toInt
  · simp [checked_of_dividesByZero hzero, hzero]
  · by_cases hrange : op.LeavesRange a.toInt b.toInt
    · simp [checked_of_leavesRange hzero hrange, hrange]
    · simp [checked_eq_ok hzero hrange, hzero, hrange, eq_comm]

theorem apply_eq_overflow_iff : op.apply a b = .error .overflow ↔
    ¬ op.DividesByZero b.toInt ∧ op.LeavesRange a.toInt b.toInt := by
  rw [← map_eq_error_iff (f := Int64.toInt), toInt_apply]
  by_cases hzero : op.DividesByZero b.toInt
  · simp [checked_of_dividesByZero hzero, hzero]
  · by_cases hrange : op.LeavesRange a.toInt b.toInt
    · simp [checked_of_leavesRange hzero hrange, hzero, hrange]
    · simp [checked_eq_ok hzero hrange, hrange]

theorem apply_eq_divisionByZero_iff : op.apply a b = .error .divisionByZero ↔ op.DividesByZero b.toInt := by
  rw [← map_eq_error_iff (f := Int64.toInt), toInt_apply]
  by_cases hzero : op.DividesByZero b.toInt
  · simp [checked_of_dividesByZero hzero, hzero]
  · by_cases hrange : op.LeavesRange a.toInt b.toInt
    · simp [checked_of_leavesRange hzero hrange, hzero]
    · simp [checked_eq_ok hzero hrange, hzero]

end BinaryOp

/-! ## Items -/

namespace Item

variable {i : Item} {stack stack' : List Value}

/-- An item can be worked off: what it makes of a stack of integers, the latest first. -/
inductive Processes : Item → List Int → List Int → Prop
  | push (v : Value) (stack : List Int) : Processes (.operand (.int v)) stack (v.toInt :: stack)
  | negate {b : Int} {stack : List Int} (hrange : Value.Fits (-b)) : Processes (.op .neg) (b :: stack) (-b :: stack)
  | join (o : BinaryOp) {a b : Int} {stack : List Int} (hzero : ¬ o.DividesByZero b) (hrange : ¬ o.LeavesRange a b) :
    Processes (.op (.binary o)) (b :: a :: stack) (o.exact a b :: stack)

/-- An operator finds its operands and no zero divisor among them, but its exact result is out of range. -/
inductive Overflows : Item → List Int → Prop
  | negate {b : Int} {stack : List Int} (hrange : ¬ Value.Fits (-b)) : Overflows (.op .neg) (b :: stack)
  | join (o : BinaryOp) {a b : Int} {stack : List Int} (hzero : ¬ o.DividesByZero b) (hrange : o.LeavesRange a b) :
    Overflows (.op (.binary o)) (b :: a :: stack)

/-- An operator that divides finds its operands, but the divisor is zero. -/
inductive LacksDivisor : Item → List Int → Prop
  | join (o : BinaryOp) {a b : Int} {stack : List Int} (hzero : o.DividesByZero b) :
    LacksDivisor (.op (.binary o)) (b :: a :: stack)

/-- Working off an item over the integers, whatever the size of its result. -/
def reckon? : List Int → Item → Option (List Int)
  | stack, .operand (.int v) => some (v.toInt :: stack)
  | b :: stack, .op .neg => some (-b :: stack)
  | b :: a :: stack, .op (.binary o) => if o.divides ∧ b = 0 then none else some (o.exact a b :: stack)
  | _, _ => none

theorem Processes.reckon?_eq {ns ns' : List Int} (h : i.Processes ns ns') : i.reckon? ns = some ns' := by
  cases h with
  | push v => rfl
  | negate => rfl
  | join o hzero => exact if_neg hzero

/-! ## Running an item -/

section Push

variable {r : Except ExprError Value} {rest : List Value}

theorem push_eq_ok_iff : (r >>= fun v => pure (v :: rest)) = .ok stack' ↔ ∃ v, r = .ok v ∧ stack' = v :: rest := by
  rw [bind_eq_ok_iff]
  simp only [pure, Except.pure, Except.ok.injEq, eq_comm]

theorem push_eq_error_iff {e : ExprError} : (r >>= fun v => pure (v :: rest)) = .error e ↔ r = .error e := by
  rw [bind_eq_error_iff]
  refine or_iff_left ?_
  rintro ⟨v, -, ⟨⟩⟩

end Push

theorem exists_of_map_toInt_eq {m n : Int} {ns : List Int} (h : stack.map Int64.toInt = n :: m :: ns) :
    ∃ b a rest, stack = b :: a :: rest ∧ b.toInt = n ∧ a.toInt = m ∧ rest.map Int64.toInt = ns := by
  obtain ⟨b, later, rfl, hb, hlater⟩ := List.map_eq_cons_iff.1 h
  obtain ⟨a, rest, rfl, ha, hrest⟩ := List.map_eq_cons_iff.1 hlater
  exact ⟨b, a, rest, rfl, hb, ha, hrest⟩

/-- An item that runs is worked off as it should be. -/
theorem processes_of_run (h : i.run stack = .ok stack') :
    i.Processes (stack.map Int64.toInt) (stack'.map Int64.toInt) := by
  match i, stack with
  | .operand (.int v), stack =>
    cases h
    exact .push v _
  | .operand (.real _), _ => cases h
  | .op .neg, [] => cases h
  | .op .neg, b :: rest =>
    obtain ⟨v, hv, rfl⟩ := push_eq_ok_iff.1 h
    obtain ⟨hrange, hv⟩ := Value.neg?_eq_ok_iff.1 hv
    rw [List.map_cons, List.map_cons, hv]
    exact .negate hrange
  | .op (.binary _), [] => cases h
  | .op (.binary _), [_] => cases h
  | .op (.binary o), b :: a :: rest =>
    obtain ⟨v, hv, rfl⟩ := push_eq_ok_iff.1 h
    obtain ⟨hzero, hrange, hv⟩ := BinaryOp.apply_eq_ok_iff.1 hv
    rw [List.map_cons, List.map_cons, List.map_cons, hv]
    exact .join o hzero hrange

/-- An item that can be worked off runs. -/
theorem run_of_processes {ns : List Int} (h : i.Processes (stack.map Int64.toInt) ns) :
    ∃ stack', i.run stack = .ok stack' ∧ stack'.map Int64.toInt = ns := by
  generalize hstack : stack.map Int64.toInt = ms at h
  cases h with
  | push v => exact ⟨v :: stack, rfl, by rw [List.map_cons, hstack]⟩
  | negate hrange =>
    obtain ⟨b, rest, rfl, rfl, rfl⟩ := List.map_eq_cons_iff.1 hstack
    obtain ⟨v, hv⟩ := Value.exists_toInt_eq hrange
    have hrun : (Item.op .neg).run (b :: rest) = .ok (v :: rest) :=
      push_eq_ok_iff.2 ⟨v, Value.neg?_eq_ok_iff.2 ⟨hrange, hv⟩, rfl⟩
    exact ⟨v :: rest, hrun, by rw [List.map_cons, hv]⟩
  | join o hzero hrange =>
    obtain ⟨b, a, rest, rfl, rfl, rfl, rfl⟩ := exists_of_map_toInt_eq hstack
    obtain ⟨v, hv⟩ := Value.exists_toInt_eq (BinaryOp.fits_of_not_leavesRange hrange)
    have hrun : (Item.op (.binary o)).run (b :: a :: rest) = .ok (v :: rest) :=
      push_eq_ok_iff.2 ⟨v, BinaryOp.apply_eq_ok_iff.2 ⟨hzero, hrange, hv⟩, rfl⟩
    exact ⟨v :: rest, hrun, by rw [List.map_cons, hv]⟩

/-- But for a numeral with a fraction and for missing operands, an item fails where its operator does. -/
theorem run_eq_error_iff {e : ExprError} (hreal : ∀ numeral, e ≠ .nonInteger numeral)
    (hoperands : ∀ o, e ≠ .insufficientOperands o) : i.run stack = .error e ↔
      (∃ b rest, i = .op .neg ∧ stack = b :: rest ∧ orOverflow (Value.neg? b) = .error e) ∨
      ∃ o a b rest, i = .op (.binary o) ∧ stack = b :: a :: rest ∧ o.apply a b = .error e := by
  constructor
  · intro h
    match i, stack with
    | .operand (.int _), _ => cases h
    | .operand (.real numeral), _ =>
      cases h
      exact absurd rfl (hreal numeral)
    | .op .neg, [] =>
      cases h
      exact absurd rfl (hoperands .neg)
    | .op .neg, b :: rest => exact Or.inl ⟨b, rest, rfl, rfl, push_eq_error_iff.1 h⟩
    | .op (.binary o), [] =>
      cases h
      exact absurd rfl (hoperands (.binary o))
    | .op (.binary o), [_] =>
      cases h
      exact absurd rfl (hoperands (.binary o))
    | .op (.binary o), b :: a :: rest => exact Or.inr ⟨o, a, b, rest, rfl, rfl, push_eq_error_iff.1 h⟩
  · rintro (⟨b, rest, rfl, rfl, h⟩ | ⟨o, a, b, rest, rfl, rfl, h⟩)
    · exact push_eq_error_iff.2 h
    · exact push_eq_error_iff.2 h

theorem run_eq_overflow_iff : i.run stack = .error .overflow ↔ i.Overflows (stack.map Int64.toInt) := by
  rw [run_eq_error_iff (by simp) (by simp)]
  constructor
  · rintro (⟨b, rest, rfl, rfl, h⟩ | ⟨o, a, b, rest, rfl, rfl, h⟩)
    · exact .negate (Value.neg?_eq_error_iff.1 h).1
    · obtain ⟨hzero, hrange⟩ := BinaryOp.apply_eq_overflow_iff.1 h
      exact .join o hzero hrange
  · intro h
    generalize hstack : stack.map Int64.toInt = ns at h
    cases h with
    | negate hrange =>
      obtain ⟨b, rest, rfl, rfl, -⟩ := List.map_eq_cons_iff.1 hstack
      exact Or.inl ⟨b, rest, rfl, rfl, Value.neg?_eq_error_iff.2 ⟨hrange, rfl⟩⟩
    | join o hzero hrange =>
      obtain ⟨b, a, rest, rfl, rfl, rfl, -⟩ := exists_of_map_toInt_eq hstack
      exact Or.inr ⟨o, a, b, rest, rfl, rfl, BinaryOp.apply_eq_overflow_iff.2 ⟨hzero, hrange⟩⟩

theorem run_eq_divisionByZero_iff :
    i.run stack = .error .divisionByZero ↔ i.LacksDivisor (stack.map Int64.toInt) := by
  rw [run_eq_error_iff (by simp) (by simp)]
  constructor
  · rintro (⟨b, rest, rfl, rfl, h⟩ | ⟨o, a, b, rest, rfl, rfl, h⟩)
    · cases (Value.neg?_eq_error_iff.1 h).2
    · exact .join o (BinaryOp.apply_eq_divisionByZero_iff.1 h)
  · intro h
    generalize hstack : stack.map Int64.toInt = ns at h
    cases h with
    | join o hzero =>
      obtain ⟨b, a, rest, rfl, rfl, -, -⟩ := exists_of_map_toInt_eq hstack
      exact Or.inr ⟨o, a, b, rest, rfl, rfl, BinaryOp.apply_eq_divisionByZero_iff.2 hzero⟩

end Item

/-! ## Sequences -/

namespace Postfix

variable {items : List Item} {stack stack' : List Value} {ns ns' : List Int}

/-- All items can be worked off one after the other. -/
inductive Processed : List Item → List Int → List Int → Prop
  | nil (ns : List Int) : Processed [] ns ns
  | cons {i : Item} {items : List Item} {ns ms ns' : List Int} (first : i.Processes ns ms)
    (later : Processed items ms ns') : Processed (i :: items) ns ns'

/-- `i` is the first item that cannot be worked off, and `ns` is on the stack when its turn comes. -/
def StopsAt (items : List Item) (i : Item) (ns : List Int) : Prop :=
  ∃ before after, items = before ++ i :: after ∧ Processed before [] ns ∧ ∀ ns', ¬ i.Processes ns ns'

theorem Processed.reckon?_eq (h : Processed items ns ns') : items.foldlM Item.reckon? ns = some ns' := by
  induction h with
  | nil ns => rfl
  | cons first later ih =>
    rw [List.foldlM_cons, first.reckon?_eq]
    exact ih

theorem processed_of_foldlM (h : items.foldlM Item.run stack = .ok stack') :
    Processed items (stack.map Int64.toInt) (stack'.map Int64.toInt) := by
  induction items generalizing stack with
  | nil =>
    cases h
    exact .nil _
  | cons i items ih =>
    rw [List.foldlM_cons] at h
    obtain ⟨next, hi, hlater⟩ := bind_eq_ok_iff.1 h
    exact .cons (Item.processes_of_run hi) (ih hlater)

theorem foldlM_of_processed (h : Processed items (stack.map Int64.toInt) ns) :
    ∃ stack', items.foldlM Item.run stack = .ok stack' ∧ stack'.map Int64.toInt = ns := by
  generalize hstack : stack.map Int64.toInt = ms at h
  induction h generalizing stack with
  | nil ms => exact ⟨stack, rfl, hstack⟩
  | cons first later ih =>
    obtain ⟨next, hnext, hms⟩ := Item.run_of_processes (hstack ▸ first)
    rw [List.foldlM_cons, hnext]
    exact ih hms

/-- A run that fails fails at one item, behind items that ran. -/
theorem foldlM_run_eq_error_iff {e : ExprError} : items.foldlM Item.run stack = .error e ↔
    ∃ before i after stack', items = before ++ i :: after ∧ before.foldlM Item.run stack = .ok stack' ∧
      i.run stack' = .error e := by
  constructor
  · intro h
    induction items generalizing stack with
    | nil => cases h
    | cons i items ih =>
      rw [List.foldlM_cons] at h
      rcases bind_eq_error_iff.1 h with hi | ⟨next, hi, hlater⟩
      · exact ⟨[], i, items, stack, rfl, rfl, hi⟩
      · obtain ⟨before, j, after, stack', rfl, hbefore, hj⟩ := ih hlater
        refine ⟨i :: before, j, after, stack', rfl, ?_, hj⟩
        rw [List.foldlM_cons, hi]
        exact hbefore
  · rintro ⟨before, i, after, stack', rfl, hbefore, hi⟩
    rw [List.foldlM_append, hbefore]
    change ((i :: after).foldlM Item.run stack') = .error e
    rw [List.foldlM_cons, hi]
    rfl

theorem evaluate_eq_ok_iff {v : Value} : evaluate items = .ok v ↔ items.foldlM Item.run [] = .ok [v] := by
  rw [evaluate]
  cases items.foldlM Item.run [] with
  | error e => exact ⟨nofun, nofun⟩
  | ok stack =>
    match stack with
    | [] => exact ⟨nofun, nofun⟩
    | [w] =>
      change Except.ok w = .ok v ↔ _
      simp
    | _ :: _ :: _ => exact ⟨nofun, nofun⟩

/-- But for the error about the number of values left, evaluation fails as one of the items does. -/
theorem evaluate_eq_error_iff {e : ExprError} (he : ∀ n, e ≠ .malformed n) :
    evaluate items = .error e ↔ items.foldlM Item.run [] = .error e := by
  rw [evaluate]
  cases items.foldlM Item.run [] with
  | error e' => exact ⟨fun h => by cases h; rfl, fun h => by cases h; rfl⟩
  | ok stack =>
    match stack with
    | [] => exact ⟨fun h => by cases h; exact absurd rfl (he 0), nofun⟩
    | [w] => exact ⟨nofun, nofun⟩
    | _ :: _ :: rest => exact ⟨fun h => by cases h; exact absurd rfl (he (rest.length + 2)), nofun⟩

/-- An error that an item gives for a stack of a certain kind is the result where the first item that cannot be worked
off finds a stack of that kind. -/
theorem evaluate_eq_error_iff_stopsAt {e : ExprError} {Bad : Item → List Int → Prop} (he : ∀ n, e ≠ .malformed n)
    (hbad : ∀ (i : Item) (stack : List Value), i.run stack = .error e ↔ Bad i (stack.map Int64.toInt)) :
    evaluate items = .error e ↔ ∃ i ns, StopsAt items i ns ∧ Bad i ns := by
  rw [evaluate_eq_error_iff he, foldlM_run_eq_error_iff]
  constructor
  · rintro ⟨before, i, after, stack, hitems, hbefore, hi⟩
    refine ⟨i, stack.map Int64.toInt, ⟨before, after, hitems, processed_of_foldlM hbefore, ?_⟩, (hbad i stack).1 hi⟩
    -- an item that can be worked off would have run
    intro ns' hprocesses
    obtain ⟨stack', hrun, -⟩ := Item.run_of_processes hprocesses
    rw [hi] at hrun
    cases hrun
  · rintro ⟨i, ns, ⟨before, after, hitems, hbefore, -⟩, hi⟩
    have hstart : Processed before (([] : List Value).map Int64.toInt) ns := hbefore
    obtain ⟨stack, hstack, rfl⟩ := foldlM_of_processed hstart
    exact ⟨before, i, after, stack, hitems, hstack, (hbad i stack).2 hi⟩

/-- The items that come before in an evaluation that succeeds leave values only, the ones that the integers say. -/
theorem reckon?_of_evaluate {before : List Item} {v : Value} (h : evaluate items = .ok v) (hbefore : before <+: items) :
    ∃ ns, before.foldlM Item.reckon? [] = some ns ∧ ∀ n ∈ ns, Value.Fits n := by
  obtain ⟨later, rfl⟩ := hbefore
  rw [evaluate_eq_ok_iff, List.foldlM_append] at h
  obtain ⟨stack, hb, -⟩ := bind_eq_ok_iff.1 h
  refine ⟨stack.map Int64.toInt, (processed_of_foldlM hb).reckon?_eq, ?_⟩
  intro n hn
  obtain ⟨w, -, rfl⟩ := List.mem_map.1 hn
  exact Value.fits_toInt w

/-- **Evaluation is exact and never wraps.** A value is the exact result over the integers, all numbers on the way to it
being values. An overflow or a division by zero is reported exactly if that is what keeps the first item that cannot be
worked off from being worked off. -/
theorem evaluate_exact (items : List Item) :
    (∀ v, evaluate items = .ok v →
      items.foldlM Item.reckon? [] = some [v.toInt] ∧
        ∀ before, before <+: items →
          ∃ ns, before.foldlM Item.reckon? [] = some ns ∧ ∀ n ∈ ns, Value.Fits n) ∧
    (evaluate items = .error .overflow ↔ ∃ i ns, StopsAt items i ns ∧ i.Overflows ns) ∧
    (evaluate items = .error .divisionByZero ↔ ∃ i ns, StopsAt items i ns ∧ i.LacksDivisor ns) := by
  refine ⟨fun v h => ⟨?_, fun before hbefore => reckon?_of_evaluate h hbefore⟩, ?_, ?_⟩
  · exact (processed_of_foldlM (evaluate_eq_ok_iff.1 h)).reckon?_eq
  · exact evaluate_eq_error_iff_stopsAt nofun fun _ _ => Item.run_eq_overflow_iff
  · exact evaluate_eq_error_iff_stopsAt nofun fun _ _ => Item.run_eq_divisionByZero_iff

theorem evaluate_exact_remainders :
    [Item.operand (.int (-7)), .operand (.int 2), .op (.binary .rem)].foldlM Item.reckon? [] = some [-1] ∧
      (∃ i ns, StopsAt [.operand (.int Value.smallest), .operand (.int (-1)), .op (.binary .rem)] i ns ∧
        i.Overflows ns) ∧
      ∃ i ns, StopsAt [.operand (.int 1), .operand (.int 0), .op (.binary .rem), .op .neg] i ns ∧ i.LacksDivisor ns :=
  ⟨((evaluate_exact _).1 (-1) (by rfl)).1, (evaluate_exact _).2.1.1 (by rfl), (evaluate_exact _).2.2.1 (by rfl)⟩

end Postfix

end BlockScript
