import BlockScript.Proofs.Phrase
import BlockScript.Proofs.PostfixTree

/-!
# The tree of a phrase

What a phrase is converted to: `Numeral.operand` for its numerals (`Numeral.ofNumeral?_of_not_overflows`), and
`Phrase.tree` for the whole of it. If no operand is bad, the tree has the value of the phrase
(`Phrase.map_toInt_eval_tree`).
-/

namespace BlockScript

open Postfix (Tree)

/-! ## Numerals as operands -/

namespace Numeral

variable (n : Numeral)

/-- The operand a numeral becomes if it does not overflow. -/
def operand : Operand :=
  match n.integer? with
  | some k => .int (Int64.ofNat k)
  | none => .real (.ofList n.text)

theorem ne_point_of_mem_whole {c : Char} (h : c ∈ n.whole) : (c == '.') = false := by
  have hd : c.isDigit = true := List.all_eq_true.1 (Text.all_of_isDigits n.isDigits_whole) c h
  rw [beq_eq_false_iff_ne]
  rintro rfl
  exact absurd hd (by decide)

theorem integral?_text :
    Operand.integral? n.text = if n.fraction.all (· == '0') then some n.whole else none := by
  have hw : ∀ c ∈ n.whole, (c == '.') = false := fun _ => n.ne_point_of_mem_whole
  have hcut : (Text.cutAt (· == '.') n.text).getD (n.text, []) = (n.whole, n.fraction) := by
    rw [text, tail]
    split
    · next hf =>
      cases hc : Text.cutAt (· == '.') (n.whole ++ []) with
      | none => simp [hf]
      | some p =>
        obtain ⟨c, hc, -, heq⟩ := Text.cutAt_eq_some_iff.1 hc
        rw [List.append_nil] at heq
        rw [hw c (by rw [heq]; simp)] at hc
        cases hc
    · have hc : Text.cutAt (· == '.') (n.whole ++ '.' :: n.fraction) = some (n.whole, n.fraction) :=
        Text.cutAt_eq_some_iff.2 ⟨'.', rfl, hw, rfl⟩
      rw [hc]
      rfl
  rw [Operand.integral?, hcut]

variable {n}

theorem ofNumeral?_of_not_overflows (negated : Bool) (h : n.overflows = false) :
    Operand.ofNumeral? negated (.ofList n.text) = some (n.operand, false) := by
  rw [Operand.ofNumeral?, String.toList_ofList, integral?_text, operand]
  cases hz : n.fraction.all (· == '0') with
  | false => simp [integer?, hz]
  | true =>
    have hk : n.integer? = some (Text.natural n.whole) := by simp [integer?, hz]
    have hlt : Text.natural n.whole < Value.smallestMagnitude := by
      rw [← Nat.not_le, Value.smallestMagnitude, ← overflows_iff hk, h]
      decide
    simp only [hk, if_true, Value.toOption_read_of_isDigits n.isDigits_whole, Value.ofNat?, if_pos hlt]

/-- A numeral that overflows can only be saved by the minus in front of it. -/
theorem ofNumeral?_of_overflows (negated : Bool) (h : n.overflows = true) :
    Operand.ofNumeral? negated (.ofList n.text) =
      if negated = true ∧ n.integer? = some 9223372036854775808 then some (.int Value.smallest, true) else none := by
  rw [Operand.ofNumeral?, String.toList_ofList, integral?_text]
  cases hz : n.fraction.all (· == '0') with
  | false => simp [overflows, integer?, hz] at h
  | true =>
    have hk : n.integer? = some (Text.natural n.whole) := by simp [integer?, hz]
    have hle : ¬ Text.natural n.whole < Value.smallestMagnitude := by
      rw [Nat.not_lt, Value.smallestMagnitude, ← overflows_iff hk, h]
    simp only [hk, if_true, Value.toOption_read_of_isDigits n.isDigits_whole, Value.ofNat?, if_neg hle,
      Text.unsigned?_of_isDigits n.isDigits_whole]
    rfl

theorem overflows_of_integer? (h : n.integer? = some 9223372036854775808) : n.overflows = true :=
  (overflows_iff h).2 (Nat.le_refl _)

end Numeral

/-! ## The tree of a phrase -/

namespace Phrase

variable {l : Level} {env : Env}

/-- The tree of operators that a phrase stands for, with the values of its names and without its parentheses. -/
def tree (env : Env) : {l : Level} → Phrase l → Tree
  | _, sum t => t.tree env
  | _, sumJoin e op t => .binary op.op (e.tree env) (t.tree env)
  | _, product u => u.tree env
  | _, productJoin t op u => .binary op.op (t.tree env) (u.tree env)
  | _, neg u => if u.isSmallestMagnitude then .leaf (.int Value.smallest) else .neg (u.tree env)
  | _, unary a => a.tree env
  | _, number n => .leaf n.operand
  | _, name x => .leaf (.int ((env.get? (.ofList x.text)).getD 0))
  | _, paren e => e.tree env

/-- Joining two trees is joining their values. -/
theorem map_toInt_eval_binary {a b : Tree} {va vb : Except ExprError Int} (ha : a.eval.map Int64.toInt = va)
    (hb : b.eval.map Int64.toInt = vb) (op : BinaryOp) :
    (Tree.binary op a b).eval.map Int64.toInt = va >>= fun x => vb >>= fun y => op.checked x y := by
  subst ha hb
  rw [Tree.eval]
  cases a.eval with
  | error e => rfl
  | ok x =>
    cases b.eval with
    | error e => rfl
    | ok y => exact op.toInt_apply x y

/-- Without a bad operand, the tree of a phrase has the value of the phrase. -/
theorem map_toInt_eval_tree (e : Phrase l) (h : e.fault? env = none) :
    (e.tree env).eval.map Int64.toInt = e.value env := by
  induction e with
  | sum t ih => exact ih h
  | product u ih => exact ih h
  | unary a ih => exact ih h
  | paren e ih => exact ih h
  | sumJoin e op t ihe iht =>
    rw [fault?, Option.or_eq_none_iff] at h
    exact map_toInt_eval_binary (ihe h.1) (iht h.2) op.op
  | productJoin t op u iht ihu =>
    rw [fault?, Option.or_eq_none_iff] at h
    exact map_toInt_eval_binary (iht h.1) (ihu h.2) op.op
  | neg u ih =>
    rw [fault?] at h
    rw [tree, value]
    cases hu : u.isSmallestMagnitude with
    | true => rfl
    | false =>
      rw [hu] at h
      rw [if_neg (by decide), if_neg (by decide), ← ih h, Tree.eval]
      cases (u.tree env).eval with
      | error e => rfl
      | ok v => exact Value.toInt_neg? v
  | number n =>
    have ho : ¬ n.overflows = true := by
      intro ho
      simp [fault?, ho] at h
    rw [tree, value, Numeral.operand]
    cases hk : n.integer? with
    | none => rfl
    | some k =>
      rw [Numeral.overflows_iff hk] at ho
      have hv : (Int64.ofNat k).toInt = k := Int64.toInt_ofNat_of_lt (by omega)
      simp only [Tree.eval, Except.map, hv]
  | name x =>
    rw [fault?] at h
    rw [tree, value]
    cases hx : env.get? (.ofList x.text) with
    | none => simp [hx] at h
    | some v => rfl

end Phrase

end BlockScript
