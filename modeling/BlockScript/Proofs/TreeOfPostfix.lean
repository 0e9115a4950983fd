import BlockScript.Proofs.ExactEvaluation
import BlockScript.Proofs.PhraseTree

/-!
# The tree of a postfix sequence

`Tree.value` evaluates a tree recursively over the integers, left part before right part and both before the operator;
evaluating the postorder of the tree on a stack gives the same result (`Tree.map_toInt_evaluate_postorder`).

The way back works off a sequence with trees on the stack in place of values. This undoes `Tree.postorder`
(`foldlM_grow_postorder`), so no two trees have the same postorder, and what is on the stack always spells the items
that were worked off (`spelling_of_foldlM_grow`). Where the evaluation succeeds it goes along, each tree with the value
on the stack as its value (`exists_grow_of_processed`). So **a sequence that has a value is the postorder of one tree
and of no other, and has the value of that tree** (`evaluate_computes_trees`).
-/

namespace BlockScript.Postfix

namespace Tree

variable {i : Item} {items : List Item} {ts ts' : List Tree} {ns ns' : List Int}

/-- The integer that a tree stands for, or the first error on the way to it. -/
def value : Tree → Except ExprError Int
  | leaf (.int v) => .ok v.toInt
  | leaf (.real numeral) => .error (.nonInteger numeral)
  | neg t => do
    let a ← t.value
    if Value.Fits (-a) then .ok (-a) else .error .overflow
  | binary op a b => do
    let x ← a.value
    let y ← b.value
    op.checked x y

theorem map_toInt_eval (t : Tree) : t.eval.map Int64.toInt = t.value := by
  induction t with
  | leaf n => cases n <;> rfl
  | neg t ih =>
    rw [eval, value, ← ih]
    cases t.eval with
    | error e => rfl
    | ok v => exact Value.toInt_neg? v
  | binary op a b iha ihb => exact Phrase.map_toInt_eval_binary iha ihb op

theorem map_toInt_evaluate_postorder (t : Tree) : (evaluate t.postorder).map Int64.toInt = t.value := by
  rw [evaluate_postorder, map_toInt_eval]

/-! ## Working off a sequence with trees -/

/-- Works off one item with trees on the stack, the latest first. -/
def grow : List Tree → Item → Option (List Tree)
  | ts, .operand n => some (leaf n :: ts)
  | t :: ts, .op .neg => some (neg t :: ts)
  | b :: a :: ts, .op (.binary op) => some (binary op a b :: ts)
  | _, .op _ => none

theorem foldlM_grow_postorder (t : Tree) (ts : List Tree) : t.postorder.foldlM grow ts = some (t :: ts) := by
  induction t generalizing ts with
  | leaf n => rfl
  | neg t ih =>
    rw [postorder, List.foldlM_append, ih]
    rfl
  | binary op a b iha ihb =>
    rw [postorder, List.foldlM_append, List.foldlM_append, iha]
    change (b.postorder.foldlM grow (a :: ts) >>= _) = _
    rw [ihb]
    rfl

theorem postorder_injective {t u : Tree} (h : t.postorder = u.postorder) : t = u := by
  have ht := foldlM_grow_postorder t []
  rw [h, foldlM_grow_postorder] at ht
  cases ht
  rfl

/-- The items of the trees on a stack, in the order in which they were worked off. -/
def spelling : List Tree → List Item
  | [] => []
  | t :: ts => spelling ts ++ t.postorder

theorem spelling_of_grow (h : grow ts i = some ts') : spelling ts' = spelling ts ++ [i] := by
  match ts, i with
  | ts, .operand n =>
    cases h
    rfl
  | t :: ts, .op .neg =>
    cases h
    simp [spelling, postorder]
  | b :: a :: ts, .op (.binary op) =>
    cases h
    simp [spelling, postorder]
  | [], .op .neg => cases h
  | [], .op (.binary _) => cases h
  | [_], .op (.binary _) => cases h

theorem spelling_of_foldlM_grow (h : items.foldlM grow ts = some ts') : spelling ts' = spelling ts ++ items := by
  induction items generalizing ts with
  | nil =>
    cases h
    simp
  | cons i items ih =>
    rw [List.foldlM_cons] at h
    cases hi : grow ts i with
    | none => rw [hi] at h; cases h
    | some next =>
      rw [hi] at h
      rw [ih h, spelling_of_grow hi, List.append_assoc]
      rfl

/-! ## Trees beside values -/

/-- The trees on one stack have the integers on the other as their values. -/
def Stand (ts : List Tree) (ns : List Int) : Prop := ts.map value = ns.map .ok

theorem value_neg {t : Tree} {b : Int} (ht : t.value = .ok b) (hrange : Value.Fits (-b)) :
    (neg t).value = .ok (-b) := by
  rw [value, ht]
  exact if_pos hrange

theorem value_binary {op : BinaryOp} {s t : Tree} {a b : Int} (hs : s.value = .ok a) (ht : t.value = .ok b)
    (hzero : ¬ op.DividesByZero b) (hrange : ¬ op.LeavesRange a b) : (binary op s t).value = .ok (op.exact a b) := by
  rw [value, hs, ht]
  exact BinaryOp.checked_eq_ok hzero hrange

theorem exists_grow_of_processes (hts : Stand ts ns) (h : i.Processes ns ns') :
    ∃ ts', grow ts i = some ts' ∧ Stand ts' ns' := by
  rw [Stand] at hts
  cases h with
  | push v =>
    refine ⟨leaf (.int v) :: ts, rfl, ?_⟩
    rw [Stand, List.map_cons, List.map_cons, hts]
    rfl
  | negate hrange =>
    obtain ⟨t, rest, rfl, ht, hrest⟩ := List.map_eq_cons_iff.1 hts
    refine ⟨neg t :: rest, rfl, ?_⟩
    rw [Stand, List.map_cons, List.map_cons, value_neg ht hrange, hrest]
  | join op hzero hrange =>
    obtain ⟨t, later, rfl, ht, hlater⟩ := List.map_eq_cons_iff.1 hts
    obtain ⟨s, rest, rfl, hs, hrest⟩ := List.map_eq_cons_iff.1 hlater
    refine ⟨binary op s t :: rest, rfl, ?_⟩
    rw [Stand, List.map_cons, List.map_cons, value_binary hs ht hzero hrange, hrest]

theorem exists_grow_of_processed (hts : Stand ts ns) (h : Processed items ns ns') :
    ∃ ts', items.foldlM grow ts = some ts' ∧ Stand ts' ns' := by
  induction h generalizing ts with
  | nil ns => exact ⟨ts, rfl, hts⟩
  | cons first later ih =>
    obtain ⟨next, hnext, hstand⟩ := exists_grow_of_processes hts first
    rw [List.foldlM_cons, hnext]
    exact ih hstand

theorem exists_postorder_of_evaluate {v : Value} (h : evaluate items = .ok v) :
    ∃ t : Tree, t.postorder = items ∧ t.value = .ok v.toInt := by
  have hprocessed := processed_of_foldlM (evaluate_eq_ok_iff.1 h)
  have hstart : Stand [] (([] : List Value).map Int64.toInt) := rfl
  obtain ⟨ts, hgrow, hstand⟩ := exists_grow_of_processed hstart hprocessed
  obtain ⟨t, rest, rfl, ht, hrest⟩ := List.map_eq_cons_iff.1 hstand
  obtain rfl := List.map_eq_nil_iff.1 hrest
  exact ⟨t, spelling_of_foldlM_grow hgrow, ht⟩

end Tree

/-- **The evaluator computes trees, and nothing but trees.** The postorder of a tree has the result of the tree, value
or error. A sequence that has a value is the postorder of exactly one tree, which has that value. -/
theorem evaluate_computes_trees :
    (∀ t : Tree, (evaluate t.postorder).map Int64.toInt = t.value) ∧
    ∀ (items : List Item) (v : Value), evaluate items = .ok v →
      ∃ t : Tree, t.postorder = items ∧ t.value = .ok v.toInt ∧ ∀ u : Tree, u.postorder = items → u = t := by
  refine ⟨Tree.map_toInt_evaluate_postorder, fun items v h => ?_⟩
  obtain ⟨t, ht, hv⟩ := Tree.exists_postorder_of_evaluate h
  exact ⟨t, ht, hv, fun u hu => Tree.postorder_injective (hu.trans ht.symm)⟩

/-- The postfix order of `8 - -(3 * 2)`. -/
def doubleMinus : List Item :=
  [.operand (.int 8), .operand (.int 3), .operand (.int 2), .op (.binary .mul), .op .neg, .op (.binary .sub)]

theorem evaluate_computes_trees_doubleMinus :
    evaluate doubleMinus = .ok 14 ∧
      ∃ t : Tree, t.postorder = doubleMinus ∧ t.value = .ok 14 ∧ ∀ u : Tree, u.postorder = doubleMinus → u = t :=
  ⟨by rfl, evaluate_computes_trees.2 doubleMinus 14 (by rfl)⟩

end BlockScript.Postfix
