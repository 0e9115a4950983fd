import BlockScript.Proofs.Phrase

/-!
# Reading the lexemes of a phrase

A phrase of the infix grammar is written without anything between its lexemes, and blanks may stand anywhere in its
text. Cutting the longest lexeme off again and again still finds the lexemes of the phrase: behind a numeral or a name
comes a character that neither can hold (`Stops`), so each lexeme is cut off whole (`split_spelling`), and the tokens
of any text that spells the phrase have these lexemes (`scan_spelling`).
-/

namespace BlockScript

namespace Lexeme

/-! ## Cutting one lexeme -/

/-- The text ends here, or goes on with a character that belongs to no numeral and no name. -/
def Stops (rest : List Char) : Prop := ∀ c ∈ rest.head?, continuesName c = false ∧ c ≠ '.'

theorem stops_nil : Stops [] := by simp [Stops]

theorem stops_cons {c : Char} {rest : List Char} (h : continuesName c = false ∧ c ≠ '.') : Stops (c :: rest) := by
  intro d hd
  cases hd
  exact h

theorem isDigit_eq_false_of_continuesName {c : Char} (h : continuesName c = false) : c.isDigit = false := by
  have h' : ((c.isAlpha || c.isDigit) || c == '_') = false := h
  rw [Bool.or_eq_false_iff, Bool.or_eq_false_iff] at h'
  exact h'.1.2

/-- Letters come after all digits. -/
theorem le_toNat_of_isAlpha {c : Char} (h : c.isAlpha = true) : 65 ≤ c.toNat := by
  have h' : (decide (c.val ≥ 'A'.val ∧ c.val ≤ 'Z'.val) || (decide (c.val ≥ 'a'.val) && decide (c.val ≤ 'z'.val))) =
      true := h
  simp only [Bool.or_eq_true, Bool.and_eq_true, decide_eq_true_eq, ge_iff_le, UInt32.le_iff_toNat_le] at h'
  have hA : 'A'.val.toNat = 65 := rfl
  have ha : 'a'.val.toNat = 97 := rfl
  change 65 ≤ c.val.toNat
  omega

theorem isDigit_eq_false_of_startsName {c : Char} (h : startsName c = true) : c.isDigit = false := by
  rw [startsName, Bool.or_eq_true, beq_iff_eq] at h
  rcases h with h | rfl
  · have hle := le_toNat_of_isAlpha h
    rw [Bool.eq_false_iff]
    intro hd
    have h9 := (Char.isDigit_iff_toNat.1 hd).2
    change c.toNat ≤ 57 at h9
    omega
  · rfl

theorem isAlpha_eq (c : Char) : c.isAlpha = (('a' ≤ c && c ≤ 'z') || ('A' ≤ c && c ≤ 'Z')) := by
  have h : c.isAlpha = (decide ('A' ≤ c ∧ c ≤ 'Z') || ('a' ≤ c && c ≤ 'z')) := rfl
  rw [h, Bool.decide_and, Bool.or_comm]

theorem continuesName_eq (c : Char) :
    continuesName c = ((('a' ≤ c && c ≤ 'z') || ('A' ≤ c && c ≤ 'Z')) || ('0' ≤ c && c ≤ '9') || c == '_') := by
  rw [← isAlpha_eq]
  rfl

/-- No character of a name is blank. -/
theorem isBlank_eq_false_of_continuesName {c : Char} (h : continuesName c = true) : Text.isBlank c = false := by
  have hcode : (97 ≤ c.toNat ∧ c.toNat ≤ 122 ∨ 65 ≤ c.toNat ∧ c.toNat ≤ 90) ∨ (48 ≤ c.toNat ∧ c.toNat ≤ 57) ∨
      c.toNat = 95 := by
    simp only [continuesName_eq, Bool.or_eq_true, Bool.and_eq_true, decide_eq_true_eq, beq_iff_eq, Char.le_def,
      UInt32.le_iff_toNat_le] at h
    rcases h with (h | h) | rfl
    · exact .inl h
    · exact .inr (.inl h)
    · exact .inr (.inr rfl)
  simp [Text.isBlank, Text.blankRanges]
  omega

theorem isBlank_eq_false_of_isDigit {c : Char} (h : c.isDigit = true) : Text.isBlank c = false := by
  apply isBlank_eq_false_of_continuesName
  rw [continuesName, Char.isAlphanum, h, Bool.or_true, Bool.true_or]

theorem continuesName_of_startsName {c : Char} (h : startsName c = true) : continuesName c = true := by
  rw [startsName, Bool.or_eq_true] at h
  rw [continuesName, Char.isAlphanum, Bool.or_eq_true, Bool.or_eq_true]
  exact h.imp_left .inl

/-- A run of characters ends where the text goes on with another kind of character. -/
theorem takeWhile_append_stop {p : Char → Bool} {cs rest : List Char} (hcs : cs.all p = true)
    (hrest : ∀ c ∈ rest.head?, p c = false) : (cs ++ rest).takeWhile p = cs := by
  rw [List.takeWhile_append_of_pos (by simpa using hcs)]
  cases rest with
  | nil => simp
  | cons c rest => simp [hrest c (by simp)]

/-- `l` is cut off whole when `rest` comes behind it. -/
def CutsBefore (l : Lexeme) (rest : List Char) : Prop :=
  split (l.text ++ rest) = (l :: (split rest).1, (split rest).2)

/-- The longest lexeme is the one that is cut off. -/
theorem cutsBefore_of_longest? {kind : Kind} {c : Char} {cs rest : List Char}
    (h : longest? c (cs ++ rest) = some (kind, cs.length)) : CutsBefore ⟨kind, c :: cs⟩ rest := by
  rw [CutsBefore, List.cons_append, split, h]
  simp

theorem cutsBefore_opening (rest : List Char) : CutsBefore .opening rest := cutsBefore_of_longest? rfl

theorem cutsBefore_closing (rest : List Char) : CutsBefore .closing rest := cutsBefore_of_longest? rfl

theorem cutsBefore_arith (op : BinaryOp) (rest : List Char) : CutsBefore (.arith op) rest := by
  cases op <;> exact cutsBefore_of_longest? rfl

theorem cutsBefore_name (x : Identifier) {rest : List Char} (h : Stops rest) : CutsBefore ⟨.name, x.text⟩ rest := by
  have hd : x.first.isDigit = false := isDigit_eq_false_of_startsName x.startsName_first
  have hrun : (x.later ++ rest).takeWhile continuesName = x.later :=
    takeWhile_append_stop x.all_later (fun c hc => (h c hc).1)
  apply cutsBefore_of_longest?
  unfold longest?
  simp only [hd, x.startsName_first, hrun, Bool.false_eq_true, ↓reduceIte]

/-- The fraction of a numeral is measured whole. -/
theorem fractionLength_tail (n : Numeral) {rest : List Char} (h : Stops rest) :
    Text.fractionLength (n.tail ++ rest) = n.tail.length := by
  rw [Numeral.tail]
  cases hf : n.fraction with
  | nil =>
    cases rest with
    | nil => rfl
    | cons c rest =>
      have hc : c ≠ '.' := (h c rfl).2
      unfold Text.fractionLength
      simp [hc]
  | cons d ds =>
    have hall : (d :: ds).all Char.isDigit = true := hf ▸ n.all_fraction
    have hrun : (d :: ds ++ rest).takeWhile Char.isDigit = d :: ds :=
      takeWhile_append_stop hall (fun c hc => isDigit_eq_false_of_continuesName (h c hc).1)
    rw [if_neg (by simp), List.cons_append, Text.fractionLength, hrun]
    rfl

theorem cutsBefore_number (n : Numeral) {rest : List Char} (h : Stops rest) :
    CutsBefore ⟨.number, n.text⟩ rest := by
  obtain ⟨c, cs, hw, hdigits⟩ := Text.exists_of_isDigits n.isDigits_whole
  have hstop : ∀ d ∈ (n.tail ++ rest).head?, d.isDigit = false := by
    intro d hd
    rw [Numeral.tail] at hd
    split at hd
    · exact isDigit_eq_false_of_continuesName (h d hd).1
    · cases hd
      rfl
  have hrun : (cs ++ (n.tail ++ rest)).takeWhile Char.isDigit = cs := takeWhile_append_stop hdigits.2 hstop
  have hlen : numeralLength (cs ++ (n.tail ++ rest)) = (cs ++ n.tail).length := by
    rw [numeralLength, hrun]
    simp [fractionLength_tail n h]
  rw [Numeral.text, hw, List.cons_append]
  apply cutsBefore_of_longest?
  unfold longest?
  rw [List.append_assoc, hlen, if_pos hdigits.1]

end Lexeme

/-! ## Cutting a phrase -/

namespace Phrase

open Lexeme (Stops split CutsBefore)

variable {l : Level}

theorem stops_arith (op : BinaryOp) (cs : List Char) : Stops ((Lexeme.arith op).text ++ cs) := by
  cases op <;> exact Lexeme.stops_cons (by decide)

theorem stops_closing (cs : List Char) : Stops (Lexeme.closing.text ++ cs) := Lexeme.stops_cons (by decide)

/-- **A phrase is cut into its lexemes**, whatever comes behind it and cannot be part of its last one. -/
theorem split_spelling_append (e : Phrase l) {rest : List Char} (h : Stops rest) :
    split (e.spelling ++ rest) = (e.lexemes ++ (split rest).1, (split rest).2) := by
  induction e generalizing rest with
  | sum t ih => exact ih h
  | product u ih => exact ih h
  | unary a ih => exact ih h
  | sumJoin e op t ihe iht =>
    have ho := Lexeme.cutsBefore_arith op.op (t.spelling ++ rest)
    have hs : (sumJoin e op t).spelling ++ rest =
        e.spelling ++ ((Lexeme.arith op.op).text ++ (t.spelling ++ rest)) := by
      simp [spelling, lexemes]
    rw [hs, ihe (stops_arith op.op _), ho, iht h]
    simp [lexemes]
  | productJoin t op u iht ihu =>
    have ho := Lexeme.cutsBefore_arith op.op (u.spelling ++ rest)
    have hs : (productJoin t op u).spelling ++ rest =
        t.spelling ++ ((Lexeme.arith op.op).text ++ (u.spelling ++ rest)) := by
      simp [spelling, lexemes]
    rw [hs, iht (stops_arith op.op _), ho, ihu h]
    simp [lexemes]
  | neg u ih =>
    have ho := Lexeme.cutsBefore_arith .sub (u.spelling ++ rest)
    have hs : (neg u).spelling ++ rest = (Lexeme.arith .sub).text ++ (u.spelling ++ rest) := by
      simp [spelling, lexemes]
    rw [hs, ho, ih h]
    simp [lexemes]
  | number n =>
    have hs : (number n).spelling ++ rest = n.text ++ rest := by simp [spelling, lexemes]
    rw [hs]
    exact Lexeme.cutsBefore_number n h
  | name x =>
    have hs : (name x).spelling ++ rest = x.text ++ rest := by simp [spelling, lexemes]
    rw [hs]
    exact Lexeme.cutsBefore_name x h
  | paren e ih =>
    have ho := Lexeme.cutsBefore_opening (e.spelling ++ (Lexeme.closing.text ++ rest))
    have hc := Lexeme.cutsBefore_closing rest
    have hs : (paren e).spelling ++ rest =
        Lexeme.opening.text ++ (e.spelling ++ (Lexeme.closing.text ++ rest)) := by
      simp [spelling, lexemes]
    rw [hs, ho, ih (stops_closing rest), hc]
    simp [lexemes]

theorem split_spelling (e : Phrase l) : split e.spelling = (e.lexemes, []) := by
  have h := split_spelling_append e Lexeme.stops_nil
  simpa [split] using h

theorem lexemes_ne_nil (e : Phrase l) : e.lexemes ≠ [] := by
  induction e with
  | sum _ ih => exact ih
  | product _ ih => exact ih
  | unary _ ih => exact ih
  | _ => simp [lexemes]

end Phrase

/-! ## Tokens -/

namespace Token

/-- A token without its place in the source. -/
def lexeme (t : Token) : Lexeme := ⟨t.kind, t.text.toList⟩

theorem map_lexeme_place (ms : List Mark) (ls : List Lexeme) : (place ms ls).map lexeme = ls := by
  induction ls generalizing ms with
  | nil => rfl
  | cons l ls ih =>
    rw [place, List.map_cons, ih]
    simp [lexeme]

/-- The tokens of a text whose characters can be cut into lexemes are these lexemes, each with its place. -/
theorem scan_of_split {source : String} {ls : List Lexeme} (hne : ls ≠ [])
    (h : Lexeme.split (Text.blankFree source.toList) = (ls, [])) :
    ∃ ts, scan source = .ok ts ∧ ts.map lexeme = ls := by
  rw [← Mark.map_char_ofChars 0] at h
  unfold scan
  cases hm : Mark.ofChars 0 source.toList with
  | nil =>
    rw [hm, List.map_nil, Lexeme.split] at h
    exact absurd (congrArg Prod.fst h).symm hne
  | cons m ms =>
    rw [hm] at h
    simp only [h]
    exact ⟨_, rfl, map_lexeme_place _ _⟩

/-- A text that is cut into one lexeme is read as one token. -/
theorem scan_of_split_singleton {source text : String} {kind : Lexeme.Kind}
    (h : Lexeme.split (Text.blankFree source.toList) = ([⟨kind, text.toList⟩], [])) :
    ∃ span, scan source = .ok [⟨kind, text, span⟩] := by
  obtain ⟨ts, hscan, hts⟩ := scan_of_split (List.cons_ne_nil _ _) h
  obtain ⟨t, rfl, ht⟩ := List.map_eq_singleton_iff.1 hts
  have hkind : t.kind = kind := congrArg Lexeme.kind ht
  have htext : t.text = text := String.toList_inj.1 (congrArg Lexeme.text ht)
  exact ⟨t.span, by rw [hscan, ← hkind, ← htext]⟩

end Token

/-- **Reading a phrase**: a text that spells a phrase, with blanks anywhere, has the tokens of the phrase. -/
theorem Phrase.scan_spelling {l : Level} (e : Phrase l) {source : String}
    (h : Text.blankFree source.toList = e.spelling) :
    ∃ ts, Token.scan source = .ok ts ∧ ts.map Token.lexeme = e.lexemes :=
  Token.scan_of_split e.lexemes_ne_nil (by rw [h, split_spelling])

end BlockScript
