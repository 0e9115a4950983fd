import BlockScript.Proofs.PhraseTree
import BlockScript.Proofs.Yard

/-!
# The value of a phrase

What a phrase means is what is calculated for every text that spells it (`calculate_eq_meaning`).

The conversion of a phrase is followed with any stack below it. If no operand is bad, reading the phrase lets some
items go out and leaves some operators waiting on the stack, and together they are the postorder of the tree of the
phrase (`Phrase.reads`). The stack below stays untouched since its top is too weak to be pushed out by an operator of
the phrase's level (`Settled`), and all that waits makes way for the next operator of that level. If an operand is bad,
the first such operand stops the conversion (`Phrase.feed_of_fault?`).
-/

namespace BlockScript

/-- The token with a given lexeme that is placed nowhere. -/
def Lexeme.token (l : Lexeme) : Token := ⟨l.kind, .ofList l.text, ⟨0, 0⟩⟩

theorem Lexeme.map_lexeme_token (ls : List Lexeme) : (ls.map token).map Token.lexeme = ls := by
  induction ls with
  | nil => rfl
  | cons l ls ih => simpa [token, Token.lexeme] using ih

namespace Postfix

variable {env : Env} {stack : List Pending} {ts us : List Token} {t : Tree} {k : Nat}

/-! ## Steps -/

theorem step_arith (env : Env) (op : BinaryOp) (stack : List Pending) (negated : Bool) :
    step env ⟨stack, false, negated⟩ (Lexeme.arith op).token =
      .ok ((drain op stack).1, ⟨.op (.binary op) :: (drain op stack).2, true, false⟩) := by
  simp [step, Lexeme.arith, Lexeme.token]

theorem step_minus (env : Env) (stack : List Pending) (negated : Bool) :
    step env ⟨stack, true, negated⟩ (Lexeme.arith .sub).token = .ok ([], ⟨.op .neg :: stack, true, true⟩) := rfl

theorem step_opening (env : Env) (y : Yard) :
    step env y Lexeme.opening.token = .ok ([], ⟨.paren :: y.stack, true, false⟩) := rfl

theorem step_closing (env : Env) (y : Yard) {items : List Item} (h : close? y.stack = some (items, stack)) :
    step env y Lexeme.closing.token = .ok (items, ⟨stack, false, false⟩) := by
  simp [step, Lexeme.closing, Lexeme.token, h]

/-! ## Stretches of tokens that make up a tree -/

/-- Reading `ts` on top of `stack` lets the postorder of `t` out, but for some operators of at least the given
precedence that still wait. -/
def Reads (env : Env) (ts : List Token) (stack : List Pending) (t : Tree) (k : Nat) : Prop :=
  ∃ (out : List Item) (waiting : List Operator),
    feed env ⟨stack, true, false⟩ ts = .ok (out, ⟨waiting.map .op ++ stack, false, false⟩) ∧
    out ++ waiting.map .op = t.postorder ∧ ∀ o ∈ waiting, k ≤ o.precedence

theorem Reads.mono (h : Reads env ts stack t k) {j : Nat} (hj : j ≤ k) : Reads env ts stack t j := by
  obtain ⟨out, waiting, hf, ht, hw⟩ := h
  exact ⟨out, waiting, hf, ht, fun o ho => Nat.le_trans hj (hw o ho)⟩

/-- A single operand leaves nothing waiting. -/
theorem reads_operand {u : Token} {n : Operand}
    (h : step env ⟨stack, true, false⟩ u = .ok ([.operand n], ⟨stack, false, false⟩)) (k : Nat) :
    Reads env [u] stack (.leaf n) k := by
  refine ⟨[.operand n], [], ?_, rfl, by simp⟩
  rw [feed_cons h]
  rfl

/-- A binary operator pushes out all that still waits of its left operand. -/
theorem Reads.feed_arith {op : BinaryOp} (h : Reads env ts stack t op.precedence) (hs : drain op stack = ([], stack))
    (us : List Token) :
    feed env ⟨stack, true, false⟩ (ts ++ (Lexeme.arith op).token :: us) =
      after t.postorder (feed env ⟨.op (.binary op) :: stack, true, false⟩ us) := by
  obtain ⟨out, waiting, hf, ht, hw⟩ := h
  have hd : drain op (waiting.map .op ++ stack) = (waiting.map .op, stack) := by
    rw [drain_append hw, hs, List.append_nil]
  have hstep := step_arith env op (waiting.map .op ++ stack) false
  rw [hd] at hstep
  rw [feed_append hf, feed_cons hstep, after_after, ht]

/-- A closing parenthesis lets out all that still waits inside. -/
theorem Reads.feed_closing (h : Reads env ts (.paren :: stack) t k) (us : List Token) :
    feed env ⟨.paren :: stack, true, false⟩ (ts ++ Lexeme.closing.token :: us) =
      after t.postorder (feed env ⟨stack, false, false⟩ us) := by
  obtain ⟨out, waiting, hf, ht, -⟩ := h
  have hstep := step_closing env ⟨waiting.map .op ++ .paren :: stack, false, false⟩ (close?_append waiting stack)
  rw [feed_append hf, feed_cons hstep, after_after, ht]

theorem Reads.binary {op : BinaryOp} {b : Tree} (h : Reads env ts stack t op.precedence)
    (hs : drain op stack = ([], stack)) (hb : Reads env us (.op (.binary op) :: stack) b k) (hk : op.precedence ≤ k) :
    Reads env (ts ++ (Lexeme.arith op).token :: us) stack (.binary op t b) op.precedence := by
  have hf := h.feed_arith hs us
  obtain ⟨out, waiting, hf', hb', hw⟩ := hb
  refine ⟨t.postorder ++ out, waiting ++ [.binary op], ?_, ?_, ?_⟩
  · rw [hf, hf', after_ok]
    simp
  · rw [Tree.postorder, ← hb']
    simp
  · intro o ho
    rcases List.mem_append.1 ho with ho | ho
    · exact Nat.le_trans hk (hw o ho)
    · rw [List.mem_singleton.1 ho]
      exact Nat.le_refl _

theorem Reads.paren (h : Reads env ts (.paren :: stack) t k) (j : Nat) :
    Reads env (Lexeme.opening.token :: (ts ++ [Lexeme.closing.token])) stack t j := by
  refine ⟨t.postorder, [], ?_, by simp, by simp⟩
  rw [feed_cons (step_opening env _), after_nil, h.feed_closing, feed, after_ok]
  simp

/-- A minus in front waits together with what is left of its operand. -/
theorem Reads.neg (h : Reads env ts (.op .neg :: stack) t 3)
    (hneg : feed env ⟨.op .neg :: stack, true, true⟩ ts = feed env ⟨.op .neg :: stack, true, false⟩ ts) :
    Reads env ((Lexeme.arith .sub).token :: ts) stack (.neg t) 3 := by
  obtain ⟨out, waiting, hf, ht, hw⟩ := h
  refine ⟨out, waiting ++ [.neg], ?_, ?_, ?_⟩
  · rw [feed_cons (step_minus env stack false), after_nil, hneg, hf]
    simp
  · rw [Tree.postorder, ← ht]
    simp
  · intro o ho
    rcases List.mem_append.1 ho with ho | ho
    · exact hw o ho
    · rw [List.mem_singleton.1 ho]
      exact Nat.le_refl _

/-- At the end of the tokens everything goes out. -/
theorem Reads.ofTokens_eq (h : Reads env ts [] t k) : ofTokens env ts = .ok t.postorder := by
  obtain ⟨out, waiting, hf, ht, -⟩ := h
  have hflush : flush? (waiting.map .op ++ []) = some (waiting.map .op) := by
    rw [List.append_nil, flush?_map]
  rw [ofTokens, convert_eq, Yard.start, hf, finish_ok hflush, ht]

end Postfix

/-! ## Phrases -/

/-- How tightly the operators of a level hold their operands. -/
def Level.precedence : Level → Nat
  | sum => 1
  | product => 2
  | unary => 3
  | atom => 4

theorem SumOp.precedence_op (op : SumOp) : op.op.precedence = 1 := by cases op <;> rfl

theorem ProductOp.precedence_op (op : ProductOp) : op.op.precedence = 2 := by cases op <;> rfl

namespace Phrase

open Postfix

variable {l : Level} {env : Env} {stack : List Pending}

/-- The tokens of a phrase, placed nowhere. -/
def tokens (e : Phrase l) : List Token := e.lexemes.map Lexeme.token

/-- No binary operator of at least the given precedence pushes anything off the stack. -/
def Settled (k : Nat) (stack : List Pending) : Prop :=
  ∀ op : BinaryOp, k ≤ op.precedence → drain op stack = ([], stack)

theorem Settled.mono {j k : Nat} (h : Settled j stack) (hjk : j ≤ k) : Settled k stack :=
  fun op hop => h op (Nat.le_trans hjk hop)

theorem settled_nil (k : Nat) : Settled k [] := fun _ _ => rfl

theorem settled_paren (k : Nat) (stack : List Pending) : Settled k (.paren :: stack) := fun _ _ => rfl

/-- A weaker operator stays where it is. -/
theorem settled_binary (op : BinaryOp) {k : Nat} (h : op.precedence < k) (stack : List Pending) :
    Settled k (.op (.binary op) :: stack) := by
  intro op' hop'
  have hy : ¬ yields (.binary op) op' = true := by
    rw [yields_iff]
    exact Nat.not_le.2 (Nat.lt_of_lt_of_le h hop')
  rw [drain, if_neg hy]

theorem precedence_le_two (op : BinaryOp) : op.precedence ≤ 2 := by cases op <;> decide

/-- Inside a unary phrase there is no binary operator outside of parentheses. -/
theorem settled_unary (stack : List Pending) : Settled 3 stack := by
  intro op hop
  have := precedence_le_two op
  omega

/-- A feed depends on where the conversion stands through its first token only. -/
theorem feed_congr_step {y z : Yard} {t : Token} (h : step env y t = step env z t) (ts : List Token) :
    feed env y (t :: ts) = feed env z (t :: ts) := by
  rw [feed, feed, h]

theorem step_number (n : Numeral) (negated : Bool) (h : n.overflows = false) :
    step env ⟨stack, true, negated⟩ (Lexeme.token ⟨.number, n.text⟩) =
      .ok ([.operand n.operand], ⟨stack, false, false⟩) := by
  simp [step, Lexeme.token, Numeral.ofNumeral?_of_not_overflows negated h]

theorem step_number_overflow {n : Numeral} {negated : Bool} (h : n.overflows = true)
    (hn : negated = true → n.integer? ≠ some 9223372036854775808) :
    step env ⟨stack, true, negated⟩ (Lexeme.token ⟨.number, n.text⟩) = .error .overflow := by
  have hc : ¬ (negated = true ∧ n.integer? = some 9223372036854775808) := fun hc => hn hc.1 hc.2
  simp only [step, Lexeme.token, Numeral.ofNumeral?_of_overflows negated h, if_neg hc]

/-- The magnitude of the smallest value takes the minus before it off the stack. -/
theorem step_number_smallest {n : Numeral} (h : n.integer? = some 9223372036854775808) :
    step env ⟨.op .neg :: stack, true, true⟩ (Lexeme.token ⟨.number, n.text⟩) =
      .ok ([.operand (.int Value.smallest)], ⟨stack, false, false⟩) := by
  simp [step, Lexeme.token, Numeral.ofNumeral?_of_overflows true (Numeral.overflows_of_integer? h), h]

/-- Only the magnitude of the smallest value is read in another way behind a minus that negates. -/
theorem feed_behind_minus (u : Phrase .unary) (h : u.isSmallestMagnitude = false) (stack : List Pending) :
    feed env ⟨stack, true, true⟩ u.tokens = feed env ⟨stack, true, false⟩ u.tokens := by
  cases u with
  | neg u => exact feed_congr_step rfl _
  | unary a =>
    cases a with
    | name x => exact feed_congr_step rfl _
    | paren e => exact feed_congr_step rfl _
    | number n =>
      refine feed_congr_step ?_ _
      cases ho : n.overflows with
      | false => rw [step_number n true ho, step_number n false ho]
      | true =>
        have hn : n.integer? ≠ some 9223372036854775808 := by
          simpa [isSmallestMagnitude] using h
        rw [step_number_overflow ho fun _ => hn, step_number_overflow ho (by simp)]

theorem tokens_sumJoin (e : Phrase .sum) (op : SumOp) (t : Phrase .product) :
    (sumJoin e op t).tokens = e.tokens ++ (Lexeme.arith op.op).token :: t.tokens := by
  simp [tokens, lexemes]

theorem tokens_productJoin (t : Phrase .product) (op : ProductOp) (u : Phrase .unary) :
    (productJoin t op u).tokens = t.tokens ++ (Lexeme.arith op.op).token :: u.tokens := by
  simp [tokens, lexemes]

theorem tokens_neg (u : Phrase .unary) : (neg u).tokens = (Lexeme.arith .sub).token :: u.tokens := by
  simp [tokens, lexemes]

theorem tokens_paren (e : Phrase .sum) :
    (paren e).tokens = Lexeme.opening.token :: (e.tokens ++ [Lexeme.closing.token]) := by
  simp [tokens, lexemes]

/-- The one phrase whose token is a numeral for the magnitude of the smallest value. -/
theorem exists_number_of_isSmallestMagnitude {u : Phrase .unary} (h : u.isSmallestMagnitude = true) :
    ∃ n : Numeral, n.integer? = some 9223372036854775808 ∧ u.tokens = [Lexeme.token ⟨.number, n.text⟩] := by
  cases u with
  | neg u => simp [isSmallestMagnitude] at h
  | unary a =>
    cases a with
    | number n => exact ⟨n, by simpa [isSmallestMagnitude] using h, rfl⟩
    | name x => simp [isSmallestMagnitude] at h
    | paren e => simp [isSmallestMagnitude] at h

/-- **A phrase without a bad operand is read as its tree.** -/
theorem reads (e : Phrase l) (hs : Settled l.precedence stack) (hf : e.fault? env = none) :
    Reads env e.tokens stack (e.tree env) l.precedence := by
  induction e generalizing stack with
  | sum t ih => exact (ih (hs.mono (by decide)) hf).mono (by decide)
  | product u ih => exact (ih (hs.mono (by decide)) hf).mono (by decide)
  | unary a ih => exact (ih (hs.mono (by decide)) hf).mono (by decide)
  | sumJoin e op t ihe iht =>
    rw [fault?, Option.or_eq_none_iff] at hf
    have hp : op.op.precedence = Level.sum.precedence := op.precedence_op
    have ht := iht (settled_binary op.op (by rw [hp]; decide) stack) hf.2
    rw [tokens_sumJoin, ← hp]
    exact Reads.binary (hp ▸ ihe hs hf.1) (hs op.op (Nat.le_of_eq hp.symm)) ht (by rw [hp]; decide)
  | productJoin t op u iht ihu =>
    rw [fault?, Option.or_eq_none_iff] at hf
    have hp : op.op.precedence = Level.product.precedence := op.precedence_op
    have hu := ihu (settled_unary (.op (.binary op.op) :: stack)) hf.2
    rw [tokens_productJoin, ← hp]
    exact Reads.binary (hp ▸ iht hs hf.1) (hs op.op (Nat.le_of_eq hp.symm)) hu (by rw [hp]; decide)
  | neg u ih =>
    rw [fault?] at hf
    rw [tokens_neg, tree]
    cases hu : u.isSmallestMagnitude with
    | true =>
      obtain ⟨n, hn, htok⟩ := exists_number_of_isSmallestMagnitude hu
      refine ⟨[.operand (.int Value.smallest)], [], ?_, rfl, by simp⟩
      rw [htok, feed_cons (step_minus env stack false), feed_cons (step_number_smallest hn)]
      rfl
    | false =>
      rw [hu] at hf
      exact (ih (settled_unary _) hf).neg (feed_behind_minus u hu _)
  | number n =>
    have ho : n.overflows = false := by
      rw [Bool.eq_false_iff]
      intro ho
      simp [fault?, ho] at hf
    exact reads_operand (step_number n false ho) _
  | name x =>
    rw [fault?] at hf
    rw [tree]
    cases hx : env.get? (.ofList x.text) with
    | none => simp [hx] at hf
    | some v =>
      apply reads_operand
      simp [step, Lexeme.token, hx]
  | paren e ih =>
    rw [tokens_paren]
    exact (ih (settled_paren _ _) hf).paren _

/-- **The first bad operand of a phrase stops the conversion.** -/
theorem feed_of_fault? (e : Phrase l) (hs : Settled l.precedence stack) {error : ExprError}
    (hf : e.fault? env = some error) : feed env ⟨stack, true, false⟩ e.tokens = .error error := by
  induction e generalizing stack with
  | sum t ih => exact ih (hs.mono (by decide)) hf
  | product u ih => exact ih (hs.mono (by decide)) hf
  | unary a ih => exact ih (hs.mono (by decide)) hf
  | sumJoin e op t ihe iht =>
    have hp : op.op.precedence = Level.sum.precedence := op.precedence_op
    rw [tokens_sumJoin]
    rw [fault?, Option.or_eq_some_iff] at hf
    rcases hf with hf | ⟨he, hf⟩
    · exact feed_append_error (ihe hs hf) _
    · have ht := iht (settled_binary op.op (by rw [hp]; decide) stack) hf
      have he : Reads env e.tokens stack (e.tree env) op.op.precedence := hp ▸ reads e hs he
      rw [he.feed_arith (hs op.op (Nat.le_of_eq hp.symm)), ht, after_error]
  | productJoin t op u iht ihu =>
    have hp : op.op.precedence = Level.product.precedence := op.precedence_op
    rw [tokens_productJoin]
    rw [fault?, Option.or_eq_some_iff] at hf
    rcases hf with hf | ⟨ht, hf⟩
    · exact feed_append_error (iht hs hf) _
    · have hu := ihu (settled_unary (.op (.binary op.op) :: stack)) hf
      have ht : Reads env t.tokens stack (t.tree env) op.op.precedence := hp ▸ reads t hs ht
      rw [ht.feed_arith (hs op.op (Nat.le_of_eq hp.symm)), hu, after_error]
  | neg u ih =>
    rw [fault?] at hf
    cases hu : u.isSmallestMagnitude with
    | true => simp [hu] at hf
    | false =>
      rw [hu] at hf
      rw [tokens_neg, feed_cons (step_minus env stack false), feed_behind_minus u hu, ih (settled_unary _) hf,
        after_error]
  | number n =>
    rw [fault?] at hf
    cases ho : n.overflows with
    | false => simp [ho] at hf
    | true =>
      obtain rfl : ExprError.overflow = error := by simpa [ho] using hf
      exact feed_cons_error (step_number_overflow ho (by simp)) _
  | name x =>
    rw [fault?] at hf
    cases hx : env.get? (.ofList x.text) with
    | some v => simp [hx] at hf
    | none =>
      obtain rfl : ExprError.unknownSymbol (.ofList x.text) = error := by simpa [hx] using hf
      apply feed_cons_error
      simp [step, Lexeme.token, hx]
  | paren e ih =>
    rw [tokens_paren, feed_cons (step_opening env _), feed_append_error (ih (settled_paren _ _) hf), after_error]

end Phrase

/-- **The value of a phrase**: whatever blanks are put into its text, an expression of the infix grammar has the result
that its derivation tree stands for. -/
theorem calculate_eq_meaning (e : Phrase .sum) (env : Env) (source : String)
    (h : Text.blankFree source.toList = e.spelling) :
    (calculate env source).map Int64.toInt = e.meaning env := by
  obtain ⟨ts, hscan, hts⟩ := e.scan_spelling h
  have hfeed : Postfix.ofTokens env ts = Postfix.ofTokens env e.tokens := by
    rw [Postfix.ofTokens, Postfix.ofTokens, Postfix.convert_eq, Postfix.convert_eq,
      Postfix.feed_congr (hts.trans (Lexeme.map_lexeme_token _).symm)]
    rfl
  rw [calculate, hscan, Phrase.meaning]
  change (Postfix.ofTokens env ts >>= Postfix.evaluate).map Int64.toInt = _
  rw [hfeed]
  cases hf : e.fault? env with
  | some error =>
    have herr := e.feed_of_fault? (Phrase.settled_nil _) hf
    rw [Postfix.ofTokens, Postfix.convert_eq, Postfix.Yard.start, herr]
    rfl
  | none =>
    rw [(e.reads (Phrase.settled_nil _) hf).ofTokens_eq]
    change (Postfix.evaluate (e.tree env).postorder).map Int64.toInt = e.value env
    rw [Postfix.Tree.evaluate_postorder, e.map_toInt_eval_tree hf]

/-- The phrase `-9223372036854775808 % (rate - 4.00)`. -/
def rateRemainder : Phrase .sum :=
  .sum (.productJoin (.product (.neg (.unary (.number ⟨"9223372036854775808".toList, [], by decide, by decide⟩)))) .rem
    (.unary (.paren (.sumJoin (.sum (.product (.unary (.name ⟨'r', "ate".toList, by decide, by decide⟩)))) .sub
      (.product (.unary (.number ⟨['4'], ['0', '0'], by decide, by decide⟩)))))))

theorem calculate_rateRemainder :
    Text.blankFree " - 9223372036854 775808 %\t( rate - 4.0 0)".toList = rateRemainder.spelling ∧
      (calculate (.ofList [("rate", 11)]) " - 9223372036854 775808 %\t( rate - 4.0 0)").map Int64.toInt = .ok (-1) :=
  ⟨by decide, (calculate_eq_meaning rateRemainder _ _ (by decide)).trans (by rfl)⟩

end BlockScript
