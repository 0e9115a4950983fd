import BlockScript.Proofs.Lexing

/-!
# The conversion token by token

`Postfix.convert` takes tokens in until they end and then lets out what still waits. `Postfix.feed` is the first half,
for any stretch of tokens: the items that go out and where the conversion stands behind the stretch. It composes along
`++` (`feed_append`), the whole conversion is a feed and a flush (`convert_eq`), and both depend on the lexemes of the
tokens alone (`feed_congr`).
-/

namespace BlockScript.Postfix

variable {env : Env}

/-- Takes tokens in one after the other: all items that go out and where the conversion stands then. -/
def feed (env : Env) : Yard → List Token → Except ExprError (List Item × Yard)
  | y, [] => .ok ([], y)
  | y, t :: ts => do
    let (items, y') ← step env y t
    let (later, y'') ← feed env y' ts
    return (items ++ later, y'')

/-- The outcome of a feed when `items` have gone out before it. -/
def after (items : List Item) (r : Except ExprError (List Item × Yard)) : Except ExprError (List Item × Yard) :=
  r.map fun (later, y) => (items ++ later, y)

@[simp]
theorem after_ok (items later : List Item) (y : Yard) : after items (.ok (later, y)) = .ok (items ++ later, y) := rfl

@[simp]
theorem after_error (items : List Item) (e : ExprError) : after items (.error e) = .error e := rfl

@[simp]
theorem after_nil (r : Except ExprError (List Item × Yard)) : after [] r = r := by
  cases r <;> rfl

theorem after_after (items later : List Item) (r : Except ExprError (List Item × Yard)) :
    after items (after later r) = after (items ++ later) r := by
  cases r with
  | error e => rfl
  | ok r => simp [after, Except.map]

theorem feed_cons {y y' : Yard} {t : Token} {items : List Item} (h : step env y t = .ok (items, y'))
    (ts : List Token) : feed env y (t :: ts) = after items (feed env y' ts) := by
  rw [feed, h]
  change (feed env y' ts >>= _) = _
  cases feed env y' ts <;> rfl

theorem feed_cons_error {y : Yard} {t : Token} {e : ExprError} (h : step env y t = .error e) (ts : List Token) :
    feed env y (t :: ts) = .error e := by
  rw [feed, h]
  rfl

/-- A feed that succeeds goes on from where it stands. -/
theorem feed_append {y y' : Yard} {ts : List Token} {items : List Item} (h : feed env y ts = .ok (items, y'))
    (us : List Token) : feed env y (ts ++ us) = after items (feed env y' us) := by
  induction ts generalizing y items with
  | nil =>
    rw [feed] at h
    cases h
    simp
  | cons t ts ih =>
    cases hs : step env y t with
    | error e =>
      rw [feed_cons_error hs] at h
      cases h
    | ok r =>
      obtain ⟨first, z⟩ := r
      rw [feed_cons hs] at h
      cases hf : feed env z ts with
      | error e =>
        rw [hf] at h
        cases h
      | ok r =>
        obtain ⟨later, w⟩ := r
        rw [hf] at h
        cases h
        rw [List.cons_append, feed_cons hs, ih hf, after_after]

/-- A feed that fails has failed for good. -/
theorem feed_append_error {y : Yard} {ts : List Token} {e : ExprError} (h : feed env y ts = .error e)
    (us : List Token) : feed env y (ts ++ us) = .error e := by
  induction ts generalizing y with
  | nil => rw [feed] at h; cases h
  | cons t ts ih =>
    cases hs : step env y t with
    | error e' =>
      rw [feed_cons_error hs] at h
      rw [List.cons_append, feed_cons_error hs, h]
    | ok r =>
      obtain ⟨first, z⟩ := r
      rw [feed_cons hs] at h
      cases hf : feed env z ts with
      | error e' =>
        rw [hf] at h
        rw [List.cons_append, feed_cons hs, ih (hf.trans h)]
        rfl
      | ok r =>
        rw [hf] at h
        cases h

/-- The items of a feed together with those that wait at its end. -/
def finish (r : Except ExprError (List Item × Yard)) : Except ExprError (List Item) := do
  let (items, y) ← r
  match flush? y.stack with
  | none => .error .unmatchedParen
  | some last => return items ++ last

theorem finish_ok {items last : List Item} {y : Yard} (h : flush? y.stack = some last) :
    finish (.ok (items, y)) = .ok (items ++ last) := by
  simp only [finish, bind, Except.bind, h]
  rfl

theorem finish_unmatched {items : List Item} {y : Yard} (h : flush? y.stack = none) :
    finish (.ok (items, y)) = .error .unmatchedParen := by
  simp only [finish, bind, Except.bind, h]

theorem finish_after (items : List Item) (r : Except ExprError (List Item × Yard)) :
    finish (after items r) = (finish r).map (items ++ ·) := by
  cases r with
  | error e => rfl
  | ok r =>
    obtain ⟨later, y⟩ := r
    rw [after_ok]
    cases h : flush? y.stack with
    | none => rw [finish_unmatched h, finish_unmatched h]; rfl
    | some last => rw [finish_ok h, finish_ok h, List.append_assoc]; rfl

/-- The conversion is a feed of all tokens and a flush. -/
theorem convert_eq (y : Yard) (ts : List Token) : convert env y ts = finish (feed env y ts) := by
  induction ts generalizing y with
  | nil =>
    rw [convert, feed]
    cases h : flush? y.stack with
    | none => rw [finish_unmatched h]
    | some last => rw [finish_ok h]; rfl
  | cons t ts ih =>
    rw [convert]
    cases h : step env y t with
    | error e => rw [feed_cons_error h]; rfl
    | ok r =>
      rw [feed_cons h, finish_after, ← ih]
      change (convert env r.2 ts >>= _) = _
      cases convert env r.2 ts <;> rfl

/-! ## Places do not matter -/

theorem step_congr {t u : Token} (h : t.lexeme = u.lexeme) (y : Yard) : step env y t = step env y u := by
  obtain ⟨kind, text, span⟩ := t
  obtain ⟨kind', text', span'⟩ := u
  simp only [Token.lexeme, Lexeme.mk.injEq, String.toList_inj] at h
  obtain ⟨rfl, rfl⟩ := h
  rfl

theorem feed_congr {ts us : List Token} (h : ts.map Token.lexeme = us.map Token.lexeme) (y : Yard) :
    feed env y ts = feed env y us := by
  induction ts generalizing us y with
  | nil =>
    obtain rfl : us = [] := by simpa using h.symm
    rfl
  | cons t ts ih =>
    obtain ⟨u, us, rfl⟩ : ∃ u us', us = u :: us' := by
      cases us with
      | nil => simp at h
      | cons u us => exact ⟨u, us, rfl⟩
    simp only [List.map_cons, List.cons.injEq] at h
    rw [feed, feed, step_congr h.1]
    cases step env y u with
    | error e => rfl
    | ok r =>
      change (feed env r.2 ts >>= _) = (feed env r.2 us >>= _)
      rw [ih h.2]

/-! ## Operators that leave the stack -/

/-- A waiting operator makes way for one that is not stronger. -/
theorem yields_iff {waiting : Operator} {op : BinaryOp} :
    yields waiting op = true ↔ op.precedence ≤ waiting.precedence := by
  simp only [yields, Operator.assoc, and_true, decide_eq_true_eq]
  omega

theorem drain_append {op : BinaryOp} {waiting : List Operator} (h : ∀ o ∈ waiting, op.precedence ≤ o.precedence)
    (stack : List Pending) :
    drain op (waiting.map .op ++ stack) = (waiting.map .op ++ (drain op stack).1, (drain op stack).2) := by
  induction waiting with
  | nil => rfl
  | cons o waiting ih =>
    have ho : yields o op = true := yields_iff.2 (h o (by simp))
    rw [List.map_cons, List.cons_append, drain, if_pos ho, ih fun o ho => h o (by simp [ho])]
    rfl

theorem close?_append (waiting : List Operator) (stack : List Pending) :
    close? (waiting.map .op ++ .paren :: stack) = some (waiting.map .op, stack) := by
  induction waiting with
  | nil => rfl
  | cons o waiting ih => rw [List.map_cons, List.cons_append, close?, ih]; rfl

theorem flush?_map (waiting : List Operator) : flush? (waiting.map .op) = some (waiting.map .op) := by
  induction waiting with
  | nil => rfl
  | cons o waiting ih => rw [List.map_cons, flush?, ih]; rfl

end BlockScript.Postfix
