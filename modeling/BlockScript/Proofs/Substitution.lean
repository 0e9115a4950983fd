import BlockScript.Proofs.Literals

/-!
# Values in place of names

A stretch of tokens may be an operand wherever it stands: it lets items out that push one value onto any stack, and
behind it the conversion stands as it does behind any operand, with the operators that waited still waiting
(`Delivers`). Two stretches that deliver the same value can be exchanged in any list of tokens, whether the rest of the
list makes sense or not (`Delivers.exchange`). A name delivers the value of its variable (`delivers_name`), and a phrase
in parentheses delivers the value of the phrase, since the parenthesis shuts out what stands around it
(`delivers_paren`). So **a variable means its value, in parentheses** (`value_of_substitution`).
-/

namespace BlockScript

namespace Postfix

variable {env : Env} {ts us : List Token} {v : Value}

/-- The tokens are an operand with the value `v` wherever they stand. -/
def Delivers (env : Env) (ts : List Token) (v : Value) : Prop :=
  ∀ y : Yard, ∃ items, feed env y ts = .ok (items, ⟨y.stack, false, false⟩) ∧
    ∀ stack : List Value, items.foldlM Item.run stack = .ok (v :: stack)

/-! ## Exchanging operands -/

/-- Items that do the same to every stack can be exchanged. -/
theorem evaluate_exchange {items items' : List Item}
    (h : ∀ stack : List Value, items.foldlM Item.run stack = items'.foldlM Item.run stack) (out later : List Item) :
    evaluate (out ++ items ++ later) = evaluate (out ++ items' ++ later) := by
  have hrun : (out ++ items ++ later).foldlM Item.run [] = (out ++ items' ++ later).foldlM Item.run [] := by
    rw [List.foldlM_append, List.foldlM_append, List.foldlM_append, List.foldlM_append]
    cases out.foldlM Item.run [] with
    | error e => rfl
    | ok stack => exact congrArg (· >>= _) (h stack)
  rw [evaluate, evaluate, hrun]

theorem Delivers.feed_append (h : Delivers env ts v) (y : Yard) (later : List Token) :
    ∃ items, feed env y (ts ++ later) = after items (feed env ⟨y.stack, false, false⟩ later) ∧
      ∀ stack : List Value, items.foldlM Item.run stack = .ok (v :: stack) := by
  obtain ⟨items, hfeed, hitems⟩ := h y
  exact ⟨items, Postfix.feed_append hfeed later, hitems⟩

/-- **Operands with the same value can be exchanged**, whatever stands before and behind them. -/
theorem Delivers.exchange (hts : Delivers env ts v) (hus : Delivers env us v) (before later : List Token) :
    (ofTokens env (before ++ ts ++ later) >>= evaluate) = ofTokens env (before ++ us ++ later) >>= evaluate := by
  rw [ofTokens, ofTokens, convert_eq, convert_eq, List.append_assoc, List.append_assoc]
  cases hbefore : feed env .start before with
  | error e => rw [feed_append_error hbefore, feed_append_error hbefore]
  | ok r =>
    obtain ⟨out, y⟩ := r
    obtain ⟨items, hfeed, hitems⟩ := hts.feed_append y later
    obtain ⟨items', hfeed', hitems'⟩ := hus.feed_append y later
    rw [Postfix.feed_append hbefore, Postfix.feed_append hbefore, hfeed, hfeed', after_after, after_after, finish_after,
      finish_after]
    cases finish (feed env ⟨y.stack, false, false⟩ later) with
    | error e => rfl
    | ok last => exact evaluate_exchange (fun stack => (hitems stack).trans (hitems' stack).symm) out last

/-! ## Operands -/

theorem delivers_name {x : Token} (hkind : x.kind = .name) (hv : env.get? x.text = some v) : Delivers env [x] v := by
  intro y
  have hstep : step env y x = .ok ([.operand (.int v)], ⟨y.stack, false, false⟩) := by
    rw [step, hkind]
    simp only [hv]
  refine ⟨[.operand (.int v)], ?_, fun stack => rfl⟩
  rw [feed_cons hstep]
  rfl

/-- A phrase in parentheses that has a value delivers it. -/
theorem delivers_paren {e : Phrase .sum} (hfault : e.fault? env = none) (hv : e.value env = .ok v.toInt)
    (hts : ts.map Token.lexeme = (Phrase.paren e).lexemes) : Delivers env ts v := by
  intro y
  have heval : (e.tree env).eval = .ok v := by
    rw [eq_ok_iff_map_toInt, e.map_toInt_eval_tree hfault, hv]
  refine ⟨(e.tree env).postorder, ?_, fun stack => ?_⟩
  · have hlexemes : ts.map Token.lexeme = (Phrase.paren e).tokens.map Token.lexeme :=
      hts.trans (Lexeme.map_lexeme_token _).symm
    have hreads := e.reads (Phrase.settled_paren Level.sum.precedence y.stack) hfault
    rw [feed_congr hlexemes, Phrase.tokens_paren, feed_cons (step_opening env y), after_nil, hreads.feed_closing, feed,
      after_ok, List.append_nil]
  · rw [Tree.foldlM_run_postorder, heval]
    rfl

end Postfix

/-! ## Values -/

/-- What a value is written with in parentheses: the decimal digits of its magnitude, behind a minus if it is negative.
-/
def Value.lexemes (v : Value) : List Lexeme :=
  .opening :: ((if v.toInt < 0 then [.arith .sub] else []) ++ [⟨.number, Nat.toDigits 10 v.toInt.natAbs⟩, .closing])

theorem Value.lexemes_eq (v : Value) : v.lexemes = (Phrase.paren (Literal.ofInt v.toInt).phrase).lexemes := by
  by_cases h : v.toInt < 0 <;>
    simp [Value.lexemes, Literal.phrase, Literal.ofInt, Literal.numeral, Numeral.text, Numeral.tail, Phrase.lexemes, h]

theorem Postfix.delivers_value (env : Env) (v : Value) {ts : List Token} (hts : ts.map Token.lexeme = v.lexemes) :
    Delivers env ts v := by
  have hinteger := Literal.integer_ofInt v.toInt
  have hfits : Value.Fits (Literal.ofInt v.toInt).integer := hinteger.symm ▸ Value.fits_toInt v
  refine delivers_paren ?_ ?_ (hts.trans v.lexemes_eq)
  · rw [Literal.fault?_phrase, if_pos hfits]
  · rw [Literal.value_phrase _ hfits, hinteger]

/-- **A variable means its value, in parentheses.** Where a name in a list of tokens is replaced by the tokens of the
value of its variable, the list has the same value or the same error as before. -/
theorem value_of_substitution (env : Env) (before later value : List Token) (x : Token) (v : Value)
    (hkind : x.kind = .name) (hv : env.get? x.text = some v) (hvalue : value.map Token.lexeme = v.lexemes) :
    (Postfix.ofTokens env (before ++ value ++ later) >>= Postfix.evaluate) =
      Postfix.ofTokens env (before ++ x :: later) >>= Postfix.evaluate := by
  rw [List.append_cons]
  exact (Postfix.delivers_value env v hvalue).exchange (Postfix.delivers_name hkind hv) before later

/-- The tokens of `(-9223372036854775808)`. -/
def smallestInParens : List Token :=
  [⟨.openParen, "(", ⟨1, 2⟩⟩, ⟨.arith .sub, "-", ⟨2, 3⟩⟩, ⟨.number, "9223372036854775808", ⟨3, 22⟩⟩,
    ⟨.closeParen, ")", ⟨22, 23⟩⟩]

/-- The number in the parentheses takes up the minus before it and leaves the one before the parentheses alone, so that
`-x` overflows where `x` is the smallest value. -/
theorem value_of_substitution_smallest :
    smallestInParens.map Token.lexeme = Value.smallest.lexemes ∧
      (Postfix.ofTokens (.ofList [("x", Value.smallest)])
        ([⟨.arith .sub, "-", ⟨0, 1⟩⟩] ++ smallestInParens ++ [⟨.arith .add, "+", ⟨23, 24⟩⟩]) >>= Postfix.evaluate) =
        .error .overflow := by
  have hvalue : smallestInParens.map Token.lexeme = Value.smallest.lexemes := by decide +kernel
  refine ⟨hvalue, ?_⟩
  rw [value_of_substitution (.ofList [("x", Value.smallest)]) _ _ _ ⟨.name, "x", ⟨1, 2⟩⟩ Value.smallest rfl rfl hvalue]
  decide +kernel

end BlockScript
