import BlockScript.Expr.Calculate
import BlockScript.Proofs.Yard
import Mathlib.Control.Monad.Basic

/-!
# Tokens by maximal munch

What a lexeme can be is told by patterns (`Lexeme.Matches`) that do not say how lexemes are found. `Munches cs ls left`
cuts the characters by these patterns alone: again and again the longest piece at the front that matches one, up to
where none does. Cutting with `Lexeme.split` is this and nothing else (`Lexeme.split_eq_iff`), so **the tokens of an
expression are found by maximal munch on its blank-free characters** (`Token.scan_munches`).

It follows that blanks make no difference but for the places that tokens and errors point at.
-/

namespace BlockScript

open Text (isBlank blankFree isDigits fractionLength)

namespace Lexeme

/-! ## Patterns -/

/-- What a lexeme of each kind can be. -/
inductive Matches : Kind → List Char → Prop where
  | number (n : Numeral) : Matches .number n.text
  | name (x : Identifier) : Matches .name x.text
  | arith (op : BinaryOp) : Matches (.arith op) op.symbol.toList
  | compare (op : Comparison) : Matches (.compare op) op.symbol.toList
  | openParen : Matches .openParen ['(']
  | closeParen : Matches .closeParen [')']

theorem cutsBefore_compare (op : Comparison) : CutsBefore ⟨.compare op, op.symbol.toList⟩ [] := by
  cases op <;> exact cutsBefore_of_longest? rfl

/-- A text that matches a pattern is one lexeme of that kind. -/
theorem Matches.split_eq {kind : Kind} {text : List Char} (h : Matches kind text) :
    split text = ([⟨kind, text⟩], []) := by
  have hcuts : CutsBefore ⟨kind, text⟩ [] := by
    cases h with
    | number n => exact cutsBefore_number n stops_nil
    | name x => exact cutsBefore_name x stops_nil
    | arith op => exact cutsBefore_arith op []
    | compare op => exact cutsBefore_compare op
    | openParen => exact cutsBefore_opening []
    | closeParen => exact cutsBefore_closing []
  rw [CutsBefore, split, List.append_nil] at hcuts
  exact hcuts

/-- No text matches the patterns of two kinds. -/
theorem Matches.kind_unique {kind kind' : Kind} {text : List Char} (h : Matches kind text) (h' : Matches kind' text) :
    kind = kind' := by
  have heq := h.split_eq.symm.trans h'.split_eq
  simp only [Prod.mk.injEq, List.cons.injEq, mk.injEq, and_true] at heq
  exact heq

/-! ## The longest piece -/

/-- Characters of one kind at the front are no longer than the longest run of them. -/
theorem length_le_takeWhile {p : Char → Bool} {cs ds : List Char} (hcs : cs.all p = true) (hfront : cs <+: ds) :
    cs.length ≤ (ds.takeWhile p).length := by
  obtain ⟨rest, rfl⟩ := hfront
  rw [List.takeWhile_append_of_pos (by simpa using hcs), List.length_append]
  omega

/-- A point with digits behind it is a fraction at least as long. -/
theorem length_lt_fractionLength {fraction : List Char} (hne : fraction ≠ [])
    (hdigits : fraction.all Char.isDigit = true) (rest : List Char) :
    fraction.length < fractionLength ('.' :: (fraction ++ rest)) := by
  have hlength := length_le_takeWhile hdigits (List.prefix_append fraction rest)
  have hpos := List.length_pos_iff.2 hne
  rw [fractionLength]
  split <;> omega

/-- A numeral at the front is no longer than the numeral that is cut off. -/
theorem length_numeral_le {n : Numeral} {c : Char} {cs : List Char} (hfront : n.text <+: c :: cs) :
    c.isDigit = true ∧ n.text.length ≤ numeralLength cs + 1 := by
  obtain ⟨rest, hrest⟩ := hfront
  obtain ⟨d, ds, hw, hdigits⟩ := Text.exists_of_isDigits n.isDigits_whole
  rw [Numeral.text, hw, List.cons_append] at hrest ⊢
  rw [List.cons_append, List.append_assoc] at hrest
  obtain ⟨rfl, rfl⟩ := List.cons.inj hrest
  refine ⟨hdigits.1, ?_⟩
  rw [List.length_cons, List.length_append, numeralLength, Numeral.tail]
  by_cases hf : n.fraction = []
  · have hrun := length_le_takeWhile hdigits.2 (List.prefix_append ds (n.tail ++ rest))
    rw [Numeral.tail, if_pos hf] at hrun
    rw [if_pos hf]
    simp only [List.length_nil]
    omega
  · -- the point ends the digits before it, so the fraction is looked for right behind them
    have hrun : (ds ++ ('.' :: n.fraction ++ rest)).takeWhile Char.isDigit = ds := by
      refine takeWhile_append_stop hdigits.2 fun e he => ?_
      cases he
      rfl
    have hfraction := length_lt_fractionLength hf n.all_fraction rest
    rw [if_neg hf, hrun, List.drop_left, List.cons_append]
    simp only [List.length_cons]
    omega

theorem longest?_of_isDigit {c : Char} (h : c.isDigit = true) (cs : List Char) :
    longest? c cs = some (.number, numeralLength cs) := by
  unfold longest?
  rw [if_pos h]

theorem longest?_of_startsName {c : Char} (h : startsName c = true) (cs : List Char) :
    longest? c cs = some (.name, (cs.takeWhile continuesName).length) := by
  unfold longest?
  rw [isDigit_eq_false_of_startsName h, if_neg Bool.false_ne_true, if_pos h]

/-- The two signs that are comparisons by themselves are so whatever comes next. -/
theorem exists_longest?_of_sign {c : Char} (h : c = '<' ∨ c = '>') (cs : List Char) :
    ∃ kind n, longest? c cs = some (kind, n) := by
  have hcompare : ∃ op n, comparison? c cs.head? = some (op, n) := by
    unfold comparison?
    rcases h with rfl | rfl
    · split <;> simp_all
    · split <;> simp_all
  obtain ⟨op, n, hop⟩ := hcompare
  refine ⟨.compare op, n, ?_⟩
  have hlongest : longest? c cs = (comparison? c cs.head?).map fun r => (.compare r.1, r.2) := by
    rcases h with rfl | rfl <;> rfl
  rw [hlongest, hop]
  rfl

/-- What matches a pattern at the front is no longer than the lexeme that is cut off there. -/
theorem Matches.length_le {kind : Kind} {text : List Char} {c : Char} {cs : List Char} (h : Matches kind text)
    (hfront : text <+: c :: cs) : ∃ kind' n, longest? c cs = some (kind', n) ∧ text.length ≤ n + 1 := by
  cases h with
  | number n =>
    obtain ⟨hdigit, hlength⟩ := length_numeral_le hfront
    exact ⟨.number, numeralLength cs, longest?_of_isDigit hdigit cs, hlength⟩
  | name x =>
    obtain ⟨rfl, hlater⟩ := List.cons_prefix_cons.1 hfront
    have hlength := length_le_takeWhile x.all_later hlater
    exact ⟨.name, _, longest?_of_startsName x.startsName_first cs, Nat.succ_le_succ hlength⟩
  | arith op =>
    cases op <;> obtain ⟨rfl, -⟩ := List.cons_prefix_cons.1 hfront <;> exact ⟨_, 0, rfl, Nat.le_refl 1⟩
  | compare op =>
    cases op with
    | gt =>
      obtain ⟨rfl, -⟩ := List.cons_prefix_cons.1 hfront
      obtain ⟨kind', n, hlongest⟩ := exists_longest?_of_sign (.inr rfl) cs
      exact ⟨kind', n, hlongest, Nat.le_add_left 1 n⟩
    | lt =>
      obtain ⟨rfl, -⟩ := List.cons_prefix_cons.1 hfront
      obtain ⟨kind', n, hlongest⟩ := exists_longest?_of_sign (.inl rfl) cs
      exact ⟨kind', n, hlongest, Nat.le_add_left 1 n⟩
    | eq | ne | ge | le =>
      obtain ⟨rfl, rest, rfl⟩ := List.cons_prefix_cons.1 hfront
      exact ⟨_, 1, rfl, Nat.le_refl 2⟩
  | openParen | closeParen =>
    obtain ⟨rfl, -⟩ := List.cons_prefix_cons.1 hfront
    exact ⟨_, 0, rfl, Nat.le_refl 1⟩

theorem take_length_takeWhile (p : Char → Bool) (cs : List Char) : cs.take (cs.takeWhile p).length = cs.takeWhile p :=
  (List.prefix_iff_eq_take.1 (List.takeWhile_prefix p)).symm

/-- What is measured as a fraction is a point with digits behind it, or nothing. -/
theorem exists_fraction (cs : List Char) : ∃ fraction : List Char, fraction.all Char.isDigit = true ∧
    cs.take (fractionLength cs) = if fraction = [] then [] else '.' :: fraction := by
  unfold fractionLength
  split
  · rename_i cs
    split
    · exact ⟨[], rfl, rfl⟩
    · rename_i n hn
      have hne : cs.takeWhile Char.isDigit ≠ [] := by
        intro h
        rw [h] at hn
        cases hn
      refine ⟨cs.takeWhile Char.isDigit, List.all_takeWhile, ?_⟩
      rw [if_neg hne, List.take_succ_cons, ← Nat.succ_eq_add_one, ← hn, take_length_takeWhile]
  · exact ⟨[], rfl, rfl⟩

theorem cons_take_of_comparison? {c : Char} {cs : List Char} {op : Comparison} {n : Nat}
    (h : comparison? c cs.head? = some (op, n)) : c :: cs.take n = op.symbol.toList := by
  unfold comparison? at h
  split at h
  case h_7 => cases h
  all_goals
    cases h
    cases cs <;> simp_all [Comparison.symbol]

/-- The lexeme that is cut off matches the pattern of its kind. -/
theorem matches_of_longest? {c : Char} {cs : List Char} {kind : Kind} {n : Nat} (h : longest? c cs = some (kind, n)) :
    Matches kind (c :: cs.take n) := by
  unfold longest? at h
  split at h
  · rename_i hdigit
    cases h
    obtain ⟨fraction, hfraction, htake⟩ := exists_fraction (cs.drop (cs.takeWhile Char.isDigit).length)
    have hwhole : isDigits (c :: cs.takeWhile Char.isDigit) = true := by
      simp [isDigits, hdigit]
    have htext : c :: cs.take (numeralLength cs) = (Numeral.mk _ fraction hwhole hfraction).text := by
      rw [numeralLength, List.take_add, take_length_takeWhile, htake]
      rfl
    rw [htext]
    exact .number _
  · split at h
    · rename_i hstarts
      cases h
      rw [take_length_takeWhile]
      exact .name ⟨c, _, hstarts, List.all_takeWhile⟩
    · split at h
      case h_8 =>
        obtain ⟨⟨op, m⟩, hop, heq⟩ := Option.map_eq_some_iff.1 h
        cases heq
        rw [cons_take_of_comparison? hop]
        exact .compare op
      all_goals cases h
      · exact .arith .add
      · exact .arith .sub
      · exact .arith .mul
      · exact .arith .div
      · exact .arith .rem
      · exact .openParen
      · exact .closeParen

/-! ## Cutting by patterns -/

/-- The lexeme is the longest piece at the front of the characters that matches a pattern, and `rest` comes behind it.
-/
structure Heads (l : Lexeme) (cs rest : List Char) : Prop where
  spells : cs = l.text ++ rest
  fits : Matches l.kind l.text
  longest : ∀ kind text, Matches kind text → text <+: cs → text.length ≤ l.text.length

/-- The lexemes are cut off the characters one after the other, each the longest piece at the front that matches a
pattern, and no pattern matches at the front of what is left. -/
inductive Munches : List Char → List Lexeme → List Char → Prop where
  | stop {left : List Char} (h : ∀ kind text, Matches kind text → ¬ text <+: left) : Munches left [] left
  | cons {l : Lexeme} {ls : List Lexeme} {cs rest left : List Char} (hhead : Heads l cs rest)
      (h : Munches rest ls left) : Munches cs (l :: ls) left

variable {l l' : Lexeme} {c : Char} {cs rest rest' left : List Char} {ls : List Lexeme}

theorem Heads.unique (h : Heads l cs rest) (h' : Heads l' cs rest') : l = l' ∧ rest = rest' := by
  obtain ⟨kind, text⟩ := l
  obtain ⟨kind', text'⟩ := l'
  have hfront : text <+: cs := ⟨rest, h.spells.symm⟩
  have hfront' : text' <+: cs := ⟨rest', h'.spells.symm⟩
  have hlength : text.length = text'.length :=
    Nat.le_antisymm (h'.longest kind text h.fits hfront) (h.longest kind' text' h'.fits hfront')
  obtain ⟨rfl, rfl⟩ := List.append_inj (h.spells.symm.trans h'.spells) hlength
  obtain rfl := h.fits.kind_unique h'.fits
  exact ⟨rfl, rfl⟩

theorem heads_of_longest? {kind : Kind} {n : Nat} (h : longest? c cs = some (kind, n)) :
    Heads ⟨kind, c :: cs.take n⟩ (c :: cs) (cs.drop n) where
  spells := by rw [List.cons_append, List.take_append_drop]
  fits := matches_of_longest? h
  longest := by
    intro kind' text htext hfront
    obtain ⟨kind₀, n₀, hlongest, hlength⟩ := htext.length_le hfront
    have hn : n₀ = n := by
      rw [h] at hlongest
      cases hlongest
      rfl
    have hall := hfront.length_le
    simp only [List.length_cons, List.length_take] at hall ⊢
    omega

/-- Nothing matches where nothing is cut off. -/
theorem not_matches_of_longest? (h : longest? c cs = none) (kind : Kind) (text : List Char)
    (htext : Matches kind text) : ¬ text <+: c :: cs := by
  intro hfront
  obtain ⟨kind', n, hlongest, -⟩ := htext.length_le hfront
  rw [h] at hlongest
  cases hlongest

theorem Matches.ne_nil {kind : Kind} {text : List Char} (h : Matches kind text) : text ≠ [] := by
  rintro rfl
  have hsplit := h.split_eq
  rw [split] at hsplit
  cases hsplit

theorem munches_split (cs : List Char) : Munches cs (split cs).1 (split cs).2 := by
  fun_induction split cs with
  | case1 => exact .stop fun kind text h hfront => h.ne_nil (List.prefix_nil.1 hfront)
  | case2 c cs hnone => exact .stop (not_matches_of_longest? hnone)
  | case3 c cs kind n hlongest after ih => exact .cons (heads_of_longest? hlongest) ih

theorem Munches.split_eq (h : Munches cs ls left) : split cs = (ls, left) := by
  induction h with
  | @stop left h =>
    cases left with
    | nil => rw [split]
    | cons c cs =>
      cases hlongest : longest? c cs with
      | none => rw [split, hlongest]
      | some r =>
        have hheads := heads_of_longest? hlongest
        exact absurd ⟨_, hheads.spells.symm⟩ (h _ _ hheads.fits)
  | @cons l ls cs rest left hhead _ ih =>
    cases cs with
    | nil => exact absurd (List.append_eq_nil_iff.1 hhead.spells.symm).1 hhead.fits.ne_nil
    | cons c cs =>
      obtain ⟨kind, n, hlongest, -⟩ := hhead.fits.length_le ⟨rest, hhead.spells.symm⟩
      obtain ⟨rfl, rfl⟩ := hhead.unique (heads_of_longest? hlongest)
      rw [split, hlongest]
      simp only [ih]

/-- **Lexemes are cut off by maximal munch.** -/
theorem split_eq_iff : split cs = (ls, left) ↔ Munches cs ls left := by
  constructor
  · intro h
    have hmunches := munches_split cs
    rwa [h] at hmunches
  · exact Munches.split_eq

/-- There is one way to cut. -/
theorem Munches.unique {ls' : List Lexeme} {left' : List Char} (h : Munches cs ls left) (h' : Munches cs ls' left') :
    ls = ls' ∧ left = left' := Prod.mk.inj (h.split_eq.symm.trans h'.split_eq)

/-- A text is a name if it matches the pattern of names. -/
theorem isName_iff {text : String} : isName text = true ↔ ∃ x : Identifier, text.toList = x.text := by
  rw [isName, decide_eq_true_iff]
  constructor
  · intro h
    cases split_eq_iff.1 h with
    | cons hhead _ =>
      obtain ⟨-, hfits, -⟩ := hhead
      generalize text.toList = cs at hfits
      cases hfits with
      | name x => exact ⟨x, rfl⟩
  · rintro ⟨x, hx⟩
    rw [hx]
    exact (Matches.name x).split_eq

end Lexeme

/-! ## Tokens -/

/-- An error without the place that it points at. -/
def ExprError.unplaced : ExprError → ExprError
  | unexpectedCharacter text _ => .unexpectedCharacter text ⟨0, 0⟩
  | e => e

namespace Token

open Lexeme (Munches)

/-- What has been read, without the places that tokens and errors point at. -/
def unplaced : Except ExprError (List Token) → Except ExprError (List Lexeme)
  | .ok ts => .ok (ts.map lexeme)
  | .error e => .error e.unplaced

variable {source : String} {ls : List Lexeme} {left : List Char}

theorem scan_of_blankFree_nil (h : blankFree source.toList = []) : scan source = .error .emptyExpression := by
  have hmarks : Mark.ofChars 0 source.toList = [] := by
    rw [← List.map_eq_nil_iff, Mark.map_char_ofChars]
    exact h
  rw [scan, hmarks]

/-- Where characters are left, the first of them is reported. -/
theorem scan_of_split_cons {c : Char} {rest : List Char}
    (h : Lexeme.split (blankFree source.toList) = (ls, c :: rest)) :
    ∃ span, scan source = .error (.unexpectedCharacter (.singleton c) span) := by
  rw [← Mark.map_char_ofChars 0] at h
  unfold scan
  cases hmarks : Mark.ofChars 0 source.toList with
  | nil =>
    rw [hmarks, List.map_nil, Lexeme.split] at h
    cases h
  | cons m ms =>
    rw [hmarks] at h
    simp only [h]
    exact ⟨_, rfl⟩

/-- A text that is not blank has tokens, which are all that it is cut into, or a first character that no token can hold.
-/
theorem scan_cases (hne : blankFree source.toList ≠ []) :
    (∃ ts, scan source = .ok ts ∧ Munches (blankFree source.toList) (ts.map lexeme) []) ∨
      ∃ ls c rest span, scan source = .error (.unexpectedCharacter (.singleton c) span) ∧
        Munches (blankFree source.toList) ls (c :: rest) := by
  cases hsplit : Lexeme.split (blankFree source.toList) with
  | mk ls left =>
    have hmunches := Lexeme.split_eq_iff.1 hsplit
    cases left with
    | cons c rest =>
      obtain ⟨span, hscan⟩ := scan_of_split_cons hsplit
      exact .inr ⟨ls, c, rest, span, hscan, hmunches⟩
    | nil =>
      have hls : ls ≠ [] := by
        rintro rfl
        have hspell := Lexeme.flatMap_text_split (blankFree source.toList)
        rw [hsplit] at hspell
        exact hne hspell.symm
      obtain ⟨ts, hscan, rfl⟩ := scan_of_split hls hsplit
      exact .inl ⟨ts, hscan, hmunches⟩

/-- What is read does not depend on the blanks. -/
theorem unplaced_scan_congr {source' : String} (h : blankFree source'.toList = blankFree source.toList) :
    unplaced (scan source') = unplaced (scan source) := by
  by_cases hne : blankFree source.toList = []
  · rw [scan_of_blankFree_nil hne, scan_of_blankFree_nil (h.trans hne)]
  · have hcases := @scan_cases source' (by rwa [h])
    rw [h] at hcases
    rcases scan_cases hne with ⟨ts, hscan, hmunches⟩ | ⟨ls, c, rest, span, hscan, hmunches⟩
    · rcases hcases with ⟨ts', hscan', hmunches'⟩ | ⟨ls', c', rest', span', -, hmunches'⟩
      · rw [hscan, hscan', unplaced, unplaced, (hmunches'.unique hmunches).1]
      · cases (hmunches'.unique hmunches).2
    · rcases hcases with ⟨ts', -, hmunches'⟩ | ⟨ls', c', rest', span', hscan', hmunches'⟩
      · cases (hmunches'.unique hmunches).2
      · cases (hmunches'.unique hmunches).2
        rw [hscan, hscan']
        rfl

/-- The tokens are the pieces into which the text can be cut to the end. -/
theorem exists_scan_eq_ok_iff (hne : blankFree source.toList ≠ []) :
    (∃ ts, scan source = .ok ts ∧ ts.map lexeme = ls) ↔ Munches (blankFree source.toList) ls [] := by
  rcases scan_cases hne with ⟨ts, hscan, hmunches⟩ | ⟨ls', c, rest, span, hscan, hmunches⟩
  · constructor
    · rintro ⟨ts', hscan', rfl⟩
      cases hscan.symm.trans hscan'
      exact hmunches
    · intro hmunches'
      exact ⟨ts, hscan, (hmunches.unique hmunches').1⟩
  · constructor
    · rintro ⟨ts', hscan', -⟩
      cases hscan.symm.trans hscan'
    · intro hmunches'
      cases (hmunches.unique hmunches').2

/-- The character that is reported is the first one that is left. -/
theorem exists_scan_eq_unexpected_iff (hne : blankFree source.toList ≠ []) {c : Char} :
    (∃ span, scan source = .error (.unexpectedCharacter (.singleton c) span)) ↔
      ∃ ls rest, Munches (blankFree source.toList) ls (c :: rest) := by
  rcases scan_cases hne with ⟨ts, hscan, hmunches⟩ | ⟨ls', c', rest', span', hscan, hmunches⟩
  · constructor
    · rintro ⟨span, hscan'⟩
      cases hscan.symm.trans hscan'
    · rintro ⟨ls, rest, hmunches'⟩
      cases (hmunches.unique hmunches').2
  · constructor
    · rintro ⟨span, hscan'⟩
      have heq := Except.error.inj (hscan.symm.trans hscan')
      obtain rfl : c' = c := by simpa using (ExprError.unexpectedCharacter.inj heq).1
      exact ⟨ls', rest', hmunches⟩
    · rintro ⟨ls, rest, hmunches'⟩
      cases (hmunches.unique hmunches').2
      exact ⟨span', hscan⟩

end Token

/-- Tokens are put into postfix order without regard to their places. -/
theorem Postfix.ofTokens_congr (env : Env) {ts us : List Token} (h : ts.map Token.lexeme = us.map Token.lexeme) :
    ofTokens env ts = ofTokens env us := by
  rw [ofTokens, ofTokens, convert_eq, convert_eq, feed_congr h]

theorem calculate_congr_blankFree (env : Env) {source source' : String}
    (h : blankFree source'.toList = blankFree source.toList) :
    (calculate env source').mapError ExprError.unplaced = (calculate env source).mapError ExprError.unplaced := by
  have hunplaced := Token.unplaced_scan_congr h
  rw [calculate, calculate]
  cases hscan : Token.scan source with
  | error e =>
    cases hscan' : Token.scan source' with
    | error e' =>
      rw [hscan, hscan'] at hunplaced
      have he : e'.unplaced = e.unplaced := Except.error.inj hunplaced
      exact congrArg Except.error he
    | ok ts' =>
      rw [hscan, hscan'] at hunplaced
      cases hunplaced
  | ok ts =>
    cases hscan' : Token.scan source' with
    | error e' =>
      rw [hscan, hscan'] at hunplaced
      cases hunplaced
    | ok ts' =>
      rw [hscan, hscan'] at hunplaced
      have hlexemes : ts'.map Token.lexeme = ts.map Token.lexeme := Except.ok.inj hunplaced
      change (Postfix.ofTokens env ts' >>= Postfix.evaluate).mapError _ =
        (Postfix.ofTokens env ts >>= Postfix.evaluate).mapError _
      rw [Postfix.ofTokens_congr env hlexemes]

namespace Token

open Lexeme (Munches)

/-- **The tokens of an expression are found by maximal munch.** An expression that is not blank has tokens exactly if
its blank-free characters can be cut to the end by taking the longest piece that matches a pattern, and the tokens are
these pieces. Else the first character where no pattern matches is reported. Expressions that differ in their blanks
only are read alike, and have the same value or the same error, but for the place that an error points at. -/
theorem scan_munches (source : String) (h : ∃ c ∈ source.toList, isBlank c = false) :
    (∀ ls, (∃ ts, scan source = .ok ts ∧ ts.map lexeme = ls) ↔ Munches (blankFree source.toList) ls []) ∧
      ((∀ ls, ¬ Munches (blankFree source.toList) ls []) →
        ∃ ls c rest span, Munches (blankFree source.toList) ls (c :: rest) ∧
          scan source = .error (.unexpectedCharacter (.singleton c) span)) ∧
      (∀ c, (∃ span, scan source = .error (.unexpectedCharacter (.singleton c) span)) ↔
        ∃ ls rest, Munches (blankFree source.toList) ls (c :: rest)) ∧
      ∀ source' : String, blankFree source'.toList = blankFree source.toList →
        unplaced (scan source') = unplaced (scan source) ∧
          ∀ env, (calculate env source').mapError ExprError.unplaced =
            (calculate env source).mapError ExprError.unplaced := by
  have hne := Text.blankFree_ne_nil_iff.2 h
  refine ⟨fun ls => exists_scan_eq_ok_iff hne, fun hnone => ?_, fun c => exists_scan_eq_unexpected_iff hne,
    fun source' hsame => ?_⟩
  · rcases scan_cases hne with ⟨ts, -, hmunches⟩ | ⟨ls, c, rest, span, hscan, hmunches⟩
    · exact absurd hmunches (hnone _)
    · exact ⟨ls, c, rest, span, hmunches, hscan⟩
  · exact ⟨unplaced_scan_congr hsame, fun env => calculate_congr_blankFree env hsame⟩

/-- Blanks inside a numeral and a comparison disappear, also from an expression that fails; and a name takes the digits
that are wanted for the numeral behind it. -/
theorem scan_munches_joined :
    Munches (blankFree "1 2 .5 > =x".toList)
        [⟨.number, ['1', '2', '.', '5']⟩, ⟨.compare .ge, ['>', '=']⟩, ⟨.name, ['x']⟩] [] ∧
      (∃ ls rest, Munches (blankFree "x 1.5".toList) ls ('.' :: rest)) ∧
      (calculate .empty " 7 /0 0").mapError ExprError.unplaced =
        (calculate .empty "7/00").mapError ExprError.unplaced := by
  have htokens : scan "1 2 .5 > =x" =
      .ok [⟨.number, "12.5", ⟨0, 6⟩⟩, ⟨.compare .ge, ">=", ⟨7, 10⟩⟩, ⟨.name, "x", ⟨10, 11⟩⟩] := by decide +kernel
  have hpoint : scan "x 1.5" = .error (.unexpectedCharacter (.singleton '.') ⟨3, 4⟩) := by decide +kernel
  have hblanks : blankFree " 7 /0 0".toList = blankFree "7/00".toList := by decide +kernel
  refine ⟨?_, ?_, ?_⟩
  · exact ((scan_munches "1 2 .5 > =x" ⟨'x', by decide, by decide⟩).1 _).1 ⟨_, htokens, by decide +kernel⟩
  · exact ((scan_munches "x 1.5" ⟨'x', by decide, by decide⟩).2.2.1 '.').1 ⟨_, hpoint⟩
  · exact ((scan_munches "7/00" ⟨'7', by decide, by decide⟩).2.2.2 " 7 /0 0" hblanks).2 .empty

end Token

end BlockScript
