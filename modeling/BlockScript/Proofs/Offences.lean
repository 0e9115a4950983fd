import BlockScript.Proofs.Acceptance
import BlockScript.Proofs.PhraseTree
import Mathlib.Data.List.Induction

/-!
# Which tokens stop the conversion

Whether a token stops the conversion can be told from the tokens before it alone (`Offends`): where an operand is
expected (`operandExpected`), whether a minus just before it negates (`minusPending`), and how many parentheses were
opened and closed. The conversion keeps just that in its state (`Stands`), for tokens in any order, and takes the next
token in unless it offends (`step_eq_error_iff`). So **the conversion reports the leftmost offence, or a parenthesis
that is left open, and succeeds in all other cases** (`ofTokens_verdict`).
-/

namespace BlockScript

namespace Postfix

variable {env : Env} {before ts : List Token} {t : Token} {y y' : Yard} {items : List Item} {e : ExprError}

/-! ## Offences -/

/-- An operand is expected behind these tokens: at the front, and behind a token that ends no operand. -/
def operandExpected (before : List Token) : Bool := before.getLast?.all fun t => !t.kind.endsOperand

/-- The last one of these tokens is a minus that stands where an operand is expected. -/
def minusPending (before : List Token) : Bool :=
  before.getLast?.any (fun t => t.kind == .arith .sub) && operandExpected before.dropLast

/-- How many opening parentheses there are. -/
def openings (ts : List Token) : Nat := ts.countP fun t => t.kind == .openParen

/-- How many closing parentheses there are. -/
def closings (ts : List Token) : Nat := ts.countP fun t => t.kind == .closeParen

/-- A token cannot be taken in behind the tokens `before`, with the error it stands for. -/
inductive Offends (env : Env) (before : List Token) : Token → ExprError → Prop
  | unknown {name : String} {span : Text.Span} (hname : env.get? name = none) :
    Offends env before ⟨.name, name, span⟩ (.unknownSymbol name)
  | comparison (op : Comparison) (symbol : String) (span : Text.Span) :
    Offends env before ⟨.compare op, symbol, span⟩ (.unexpectedSymbol symbol)
  | unmatched {text : String} {span : Text.Span} (hclosed : openings before ≤ closings before) :
    Offends env before ⟨.closeParen, text, span⟩ .unmatchedParen
  | tooLarge {n : Numeral} {k : Nat} {span : Text.Span} (hk : n.integer? = some k) (hlarge : 9223372036854775807 < k)
    (hminus : ¬ (k = 9223372036854775808 ∧ minusPending before = true)) :
    Offends env before ⟨.number, .ofList n.text, span⟩ .overflow

/-- No token offends. -/
def Clean (env : Env) (ts : List Token) : Prop :=
  ∀ before t after e, ts = before ++ t :: after → ¬ Offends env before t e

/-- The error of the leftmost token that offends. -/
def FirstOffence (env : Env) (ts : List Token) (e : ExprError) : Prop :=
  ∃ before t after, ts = before ++ t :: after ∧ Clean env before ∧ Offends env before t e

theorem clean_nil : Clean env [] := by
  intro before t after e h
  simp at h

theorem clean_concat : Clean env (ts ++ [t]) ↔ Clean env ts ∧ ∀ e, ¬ Offends env ts t e := by
  constructor
  · intro h
    refine ⟨?_, fun e => h ts t [] e rfl⟩
    rintro before u after e rfl
    exact h before u (after ++ [t]) e (by simp)
  · rintro ⟨hts, ht⟩ before u after e heq
    rcases List.eq_nil_or_concat after with rfl | ⟨later, v, rfl⟩
    · obtain ⟨rfl, rfl⟩ : ts = before ∧ t = u := by simpa using heq
      exact ht e
    · have hsplit : ts ++ [t] = (before ++ u :: later) ++ [v] := by simpa using heq
      exact hts before u later e (List.append_inj_left' hsplit rfl)

theorem exists_firstOffence (h : ¬ Clean env ts) : ∃ e, FirstOffence env ts e := by
  induction ts using List.reverseRecOn with
  | nil => exact absurd clean_nil h
  | append_singleton ts t ih =>
    by_cases hts : Clean env ts
    · have ht : ¬ ∀ e, ¬ Offends env ts t e := fun ht => h (clean_concat.2 ⟨hts, ht⟩)
      obtain ⟨e, he⟩ := Classical.not_forall_not.1 ht
      exact ⟨e, ts, t, [], rfl, hts, he⟩
    · obtain ⟨e, before, u, after, rfl, hbefore, hu⟩ := ih hts
      exact ⟨e, before, u, after ++ [t], by simp, hbefore, hu⟩

/-! ## Where the conversion stands -/

/-- The state of the conversion holds what counts of the tokens that were taken in. -/
structure Stands (before : List Token) (y : Yard) : Prop where
  marked : y.Marked
  expectsOperand : y.expectsOperand = operandExpected before
  afterNeg : y.afterNeg = minusPending before
  opens : opens y.stack + closings before = openings before

theorem stands_start : Stands [] .start := ⟨nofun, rfl, rfl, rfl⟩

theorem close?_eq_none_iff {stack : List Pending} : close? stack = none ↔ opens stack = 0 := by
  induction stack with
  | nil => exact ⟨fun _ => rfl, fun _ => rfl⟩
  | cons p stack ih =>
    cases p with
    | op o => rw [close?, opens, Option.map_eq_none_iff, ih]
    | paren => simp [close?, opens]

theorem flush?_eq_none_iff {stack : List Pending} : flush? stack = none ↔ 0 < opens stack := by
  induction stack with
  | nil => simp [flush?, opens]
  | cons p stack ih =>
    cases p with
    | op o => rw [flush?, opens, Option.map_eq_none_iff, ih]
    | paren => simp [flush?, opens]

/-- A number is refused exactly if its integer is too large and no minus is there to take it up. -/
theorem ofNumeral?_eq_none_iff {negated : Bool} {n : Numeral} :
    Operand.ofNumeral? negated (.ofList n.text) = none ↔
      ∃ k, n.integer? = some k ∧ 9223372036854775807 < k ∧ ¬ (k = 9223372036854775808 ∧ negated = true) := by
  cases ho : n.overflows with
  | false =>
    rw [Numeral.ofNumeral?_of_not_overflows negated ho]
    refine iff_of_false (by simp) ?_
    rintro ⟨k, hk, hlarge, -⟩
    rw [(Numeral.overflows_iff hk).2 hlarge] at ho
    cases ho
  | true =>
    rw [Numeral.ofNumeral?_of_overflows negated ho]
    cases hk : n.integer? with
    | none => simp [Numeral.overflows, hk] at ho
    | some k =>
      have hlarge : 9223372036854775808 ≤ k := (Numeral.overflows_iff hk).1 ho
      by_cases hminus : negated = true ∧ k = 9223372036854775808
      · rw [if_pos ⟨hminus.1, congrArg some hminus.2⟩]
        refine iff_of_false (by simp) ?_
        rintro ⟨j, ⟨⟩, -, hno⟩
        exact hno hminus.symm
      · rw [if_neg fun h => hminus ⟨h.1, Option.some.inj h.2⟩]
        exact ⟨fun _ => ⟨k, rfl, hlarge, fun h => hminus h.symm⟩, fun _ => rfl⟩

/-- The next token is refused exactly if it offends. -/
theorem step_eq_error_iff (hy : Stands before y) (ht : t.kind = .number → ∃ n : Numeral, t.text = .ofList n.text) :
    step env y t = .error e ↔ Offends env before t e := by
  obtain ⟨kind, text, span⟩ := t
  cases kind with
  | number =>
    have hrefused : step env y ⟨.number, text, span⟩ = .error e ↔
        Operand.ofNumeral? (minusPending before) text = none ∧ .overflow = e := by
      simp only [step, hy.afterNeg]
      cases Operand.ofNumeral? (minusPending before) text with
      | none => simp
      | some r => simp
    rw [hrefused]
    constructor
    · rintro ⟨hnone, rfl⟩
      obtain ⟨n, rfl⟩ : ∃ n : Numeral, text = .ofList n.text := ht rfl
      obtain ⟨k, hk, hlarge, hminus⟩ := ofNumeral?_eq_none_iff.1 hnone
      exact .tooLarge hk hlarge hminus
    · intro h
      cases h with
      | tooLarge hk hlarge hminus => exact ⟨ofNumeral?_eq_none_iff.2 ⟨_, hk, hlarge, hminus⟩, rfl⟩
  | name =>
    simp only [step]
    cases hname : env.get? text with
    | none =>
      constructor
      · rintro ⟨⟩
        exact .unknown hname
      · rintro ⟨⟩
        rfl
    | some v =>
      refine iff_of_false (by simp) ?_
      rintro ⟨hnone⟩
      rw [hname] at hnone
      cases hnone
  | openParen =>
    constructor
    · rintro ⟨⟩
    · rintro ⟨⟩
  | closeParen =>
    have hopens := hy.opens
    simp only [step]
    cases hclose : close? y.stack with
    | none =>
      have hzero := close?_eq_none_iff.1 hclose
      constructor
      · rintro ⟨⟩
        exact .unmatched (by omega)
      · rintro ⟨⟩
        rfl
    | some r =>
      refine iff_of_false (by simp) ?_
      rintro ⟨hclosed⟩
      have hzero : close? y.stack = none := close?_eq_none_iff.2 (by omega)
      rw [hclose] at hzero
      cases hzero
  | compare op =>
    constructor
    · rintro ⟨⟩
      exact .comparison op text span
    · rintro ⟨⟩
      rfl
  | arith op =>
    constructor
    · simp only [step]
      split <;> rintro ⟨⟩
    · rintro ⟨⟩

theorem operandExpected_concat : operandExpected (before ++ [t]) = !t.kind.endsOperand := by
  simp [operandExpected]

theorem minusPending_concat :
    minusPending (before ++ [t]) = (t.kind == .arith .sub && operandExpected before) := by
  simp [minusPending]

theorem openings_concat : openings (before ++ [t]) = openings before + if t.kind = .openParen then 1 else 0 := by
  simp [openings, List.countP_append, List.countP_singleton]

theorem closings_concat : closings (before ++ [t]) = closings before + if t.kind = .closeParen then 1 else 0 := by
  simp [closings, List.countP_append, List.countP_singleton]

/-- Taking a token in changes the number of waiting parentheses as the token says, and remembers a minus that negates.
-/
theorem step_opens (hy : y.Marked) (h : step env y t = .ok (items, y')) :
    y'.afterNeg = (t.kind == .arith .sub && y.expectsOperand) ∧
      opens y'.stack + (if t.kind = .closeParen then 1 else 0) =
        opens y.stack + if t.kind = .openParen then 1 else 0 := by
  obtain ⟨kind, text, span⟩ := t
  cases kind with
  | number =>
    simp only [step] at h
    split at h
    · cases h
    · rename_i n absorbs hn
      cases h
      cases absorbs with
      | false => exact ⟨rfl, rfl⟩
      | true => exact ⟨rfl, (hy.owed_tail (afterNeg_of_ofNumeral? hn)).2⟩
  | name =>
    simp only [step] at h
    split at h
    · cases h
    · cases h
      exact ⟨rfl, rfl⟩
  | openParen =>
    cases h
    exact ⟨rfl, rfl⟩
  | closeParen =>
    simp only [step] at h
    split at h
    · cases h
    · rename_i out below hclose
      cases h
      exact ⟨rfl, (close?_counts hclose).2.symm⟩
  | compare op => cases h
  | arith op =>
    simp only [step] at h
    split at h
    · rename_i hneg
      cases h
      exact ⟨by simp [hneg], rfl⟩
    · rename_i hbinary
      cases h
      exact ⟨(Bool.eq_false_iff.2 fun hneg => hbinary (by simpa using hneg)).symm, (drain_counts op y.stack).2⟩

theorem Stands.step (hy : Stands before y) (h : step env y t = .ok (items, y')) : Stands (before ++ [t]) y' := by
  have hcounts := step_counts hy.marked h
  obtain ⟨hneg, hopens⟩ := step_opens hy.marked h
  have hbefore := hy.opens
  refine ⟨hcounts.marked, ?_, ?_, ?_⟩
  · rw [hcounts.expectsOperand, operandExpected_concat]
  · rw [hneg, minusPending_concat, hy.expectsOperand]
  · rw [openings_concat, closings_concat]
    omega

/-! ## Runs -/

/-- The texts of the number tokens are numerals. -/
def WithNumerals (ts : List Token) : Prop := ∀ t ∈ ts, t.kind = .number → ∃ n : Numeral, t.text = .ofList n.text

theorem withNumerals_append {us : List Token} : WithNumerals (ts ++ us) ↔ WithNumerals ts ∧ WithNumerals us := by
  simp only [WithNumerals, List.mem_append]
  exact ⟨fun h => ⟨fun t ht => h t (Or.inl ht), fun t ht => h t (Or.inr ht)⟩, fun h t ht => ht.elim (h.1 t) (h.2 t)⟩

/-- Tokens of which none offends are all taken in. -/
theorem feed_of_clean (hts : WithNumerals ts) (h : Clean env ts) :
    ∃ items y, feed env .start ts = .ok (items, y) ∧ Stands ts y := by
  -- from the end, since whether a token offends depends on all tokens before it
  induction ts using List.reverseRecOn with
  | nil => exact ⟨[], .start, rfl, stands_start⟩
  | append_singleton ts t ih =>
    obtain ⟨hbefore, ht⟩ := withNumerals_append.1 hts
    obtain ⟨hclean, hinoffensive⟩ := clean_concat.1 h
    obtain ⟨items, y, hfeed, hy⟩ := ih hbefore hclean
    cases hstep : step env y t with
    | error e => exact absurd ((step_eq_error_iff hy (ht t List.mem_cons_self)).1 hstep) (hinoffensive e)
    | ok r =>
      obtain ⟨last, y'⟩ := r
      refine ⟨items ++ last, y', ?_, hy.step hstep⟩
      rw [feed_append hfeed, feed_cons hstep, feed, after_ok, after_ok, List.append_nil]

/-- The leftmost offence is reported. -/
theorem ofTokens_of_firstOffence (hts : WithNumerals ts) (h : FirstOffence env ts e) : ofTokens env ts = .error e := by
  obtain ⟨before, t, after, rfl, hclean, ht⟩ := h
  obtain ⟨hbefore, hlater⟩ := withNumerals_append.1 hts
  obtain ⟨items, y, hfeed, hy⟩ := feed_of_clean hbefore hclean
  have hstep := (step_eq_error_iff hy (hlater t List.mem_cons_self)).2 ht
  rw [ofTokens, convert_eq, feed_append hfeed, feed_cons_error hstep]
  rfl

/-- Without an offence the number of parentheses decides. -/
theorem ofTokens_of_clean (hts : WithNumerals ts) (h : Clean env ts) :
    (closings ts < openings ts ∧ ofTokens env ts = .error .unmatchedParen) ∨
      (openings ts ≤ closings ts ∧ ∃ items, ofTokens env ts = .ok items) := by
  obtain ⟨items, y, hfeed, hy⟩ := feed_of_clean hts h
  have hopens := hy.opens
  rw [ofTokens, convert_eq, hfeed]
  cases hflush : flush? y.stack with
  | none =>
    have hwaiting := flush?_eq_none_iff.1 hflush
    exact Or.inl ⟨by omega, finish_unmatched hflush⟩
  | some last =>
    have hwaiting : ¬ 0 < opens y.stack := by
      rw [← flush?_eq_none_iff, hflush]
      nofun
    exact Or.inr ⟨by omega, items ++ last, finish_ok hflush⟩

/-- Tokens offend, leave a parenthesis open or are converted. -/
theorem ofTokens_cases (env : Env) (hts : WithNumerals ts) :
    (∃ e, FirstOffence env ts e ∧ ofTokens env ts = .error e) ∨
      (Clean env ts ∧ closings ts < openings ts ∧ ofTokens env ts = .error .unmatchedParen) ∨
      (Clean env ts ∧ openings ts ≤ closings ts ∧ ∃ items, ofTokens env ts = .ok items) := by
  by_cases hclean : Clean env ts
  · rcases ofTokens_of_clean hts hclean with hopen | hclosed
    · exact Or.inr (Or.inl ⟨hclean, hopen⟩)
    · exact Or.inr (Or.inr ⟨hclean, hclosed⟩)
  · obtain ⟨e, he⟩ := exists_firstOffence hclean
    exact Or.inl ⟨e, he, ofTokens_of_firstOffence hts he⟩

/-- **The conversion succeeds and fails exactly as its rules say.** It fails with the error of the leftmost token that
offends; if no token does, it fails where a parenthesis is left open, and succeeds elsewhere. -/
theorem ofTokens_verdict (env : Env) (ts : List Token) (hts : WithNumerals ts) :
    (∀ e, ofTokens env ts = .error e ↔
      FirstOffence env ts e ∨ (Clean env ts ∧ closings ts < openings ts ∧ e = .unmatchedParen)) ∧
    ((∃ items, ofTokens env ts = .ok items) ↔ Clean env ts ∧ openings ts ≤ closings ts) := by
  constructor
  · intro e
    constructor
    · intro h
      rcases ofTokens_cases env hts with ⟨e', hfirst, heq⟩ | ⟨hclean, hopen, heq⟩ | ⟨-, -, items, heq⟩
      · rw [heq] at h
        cases h
        exact Or.inl hfirst
      · rw [heq] at h
        cases h
        exact Or.inr ⟨hclean, hopen, rfl⟩
      · rw [heq] at h
        cases h
    · rintro (hfirst | ⟨hclean, hopen, rfl⟩)
      · exact ofTokens_of_firstOffence hts hfirst
      · rcases ofTokens_of_clean hts hclean with ⟨-, heq⟩ | ⟨hclosed, -⟩
        · exact heq
        · omega
  · constructor
    · rintro ⟨items, h⟩
      rcases ofTokens_cases env hts with ⟨e, -, heq⟩ | ⟨-, -, heq⟩ | ⟨hclean, hclosed, -⟩
      · rw [heq] at h
        cases h
      · rw [heq] at h
        cases h
      · exact ⟨hclean, hclosed⟩
    · rintro ⟨hclean, hclosed⟩
      rcases ofTokens_of_clean hts hclean with ⟨hopen, -⟩ | ⟨-, hok⟩
      · omega
      · exact hok

/-- The tokens of `(-9223372036854775808 + 9223372036854775808`, each placed nowhere. -/
def tokensAtLimit : List Token :=
  [⟨.openParen, "(", ⟨0, 0⟩⟩, ⟨.arith .sub, "-", ⟨0, 0⟩⟩, ⟨.number, "9223372036854775808", ⟨0, 0⟩⟩,
    ⟨.arith .add, "+", ⟨0, 0⟩⟩, ⟨.number, "9223372036854775808", ⟨0, 0⟩⟩]

theorem withNumerals_tokensAtLimit : WithNumerals tokensAtLimit := by
  intro t ht hkind
  refine ⟨⟨"9223372036854775808".toList, [], by decide, by decide⟩, ?_⟩
  simp only [tokensAtLimit, List.mem_cons, List.not_mem_nil, or_false] at ht
  rcases ht with rfl | rfl | rfl | rfl | rfl
  · cases hkind
  · cases hkind
  · rfl
  · cases hkind
  · rfl

theorem ofTokens_verdict_tokensAtLimit :
    ofTokens .empty tokensAtLimit = .error .overflow ∧ FirstOffence .empty tokensAtLimit .overflow :=
  have h : ofTokens .empty tokensAtLimit = .error .overflow := by rfl
  ⟨h, (((ofTokens_verdict .empty tokensAtLimit withNumerals_tokensAtLimit).1 .overflow).1 h).resolve_right
    fun hopen => nomatch hopen.2.2⟩

end Postfix

end BlockScript
