import BlockScript.Proofs.Lexing
import BlockScript.Proofs.Spans
import Mathlib.Control.Monad.Basic

/-!
# The ranges of tokens

Blanks are dropped before lexemes are cut, also those inside a lexeme, so the range of a token in the source is no
shifted range of the blank-free text. How tokens lie in the source is told without marks and lexemes by `Token.Laid`:
pieces one after the other with nothing but blanks before, between and behind them, each piece made of the characters of
a token and of blanks between these (`Spells`). The tokens that are read lie so (`Token.laid_place`), and that their
ranges are ordered, disjoint and hold every character follows from this alone.

The same ranges come from a table with one entry for each byte of the blank-free text (`origin`), looked up at the first
byte of a token and at its last one; both are in the table (`Traced`). All this together is
`Token.scan_ranges_exact`.
-/

namespace BlockScript

open Text (Span isBlank blankFree)

/-! ## Bytes of characters -/

/-- How many bytes characters take. -/
def Text.byteSize (cs : List Char) : Nat := (String.ofList cs).utf8ByteSize

open Text (byteSize)

namespace Text

@[simp]
theorem byteSize_nil : byteSize [] = 0 := rfl

@[simp]
theorem byteSize_cons (c : Char) (cs : List Char) : byteSize (c :: cs) = c.utf8Size + byteSize cs :=
  utf8ByteSize_ofList_cons c cs

@[simp]
theorem byteSize_append (cs ds : List Char) : byteSize (cs ++ ds) = byteSize cs + byteSize ds := by
  rw [byteSize, String.ofList_append, String.utf8ByteSize_append]
  rfl

theorem byteSize_pos {cs : List Char} (h : cs ≠ []) : 0 < byteSize cs := by
  cases cs with
  | nil => exact absurd rfl h
  | cons c cs =>
    have := c.utf8Size_pos
    rw [byteSize_cons]
    omega

end Text

/-! ## Pieces of the source -/

/-- A piece of the source spells the characters: it is made of them and of blanks between them. -/
structure Spells (piece chars : List Char) : Prop where
  ne_nil : piece ≠ []
  blankFree_eq : blankFree piece = chars
  head?_eq : piece.head? = chars.head?
  getLast?_eq : piece.getLast? = chars.getLast?

namespace Spells

variable {c : Char} {gap piece chars : List Char}

theorem chars_ne_nil (h : Spells piece chars) : chars ≠ [] := by
  rintro rfl
  exact h.ne_nil (List.head?_eq_none_iff.1 h.head?_eq)

theorem singleton (hc : isBlank c = false) : Spells [c] [c] :=
  ⟨List.cons_ne_nil _ _, Text.blankFree_eq_self (List.forall_mem_singleton.2 hc), rfl, rfl⟩

/-- One more character in front, with blanks behind it. -/
theorem cons (hc : isBlank c = false) (hgap : gap.all isBlank = true) (h : Spells piece chars) :
    Spells (c :: (gap ++ piece)) (c :: chars) where
  ne_nil := List.cons_ne_nil _ _
  blankFree_eq := by
    have hnone : blankFree gap = [] := Text.blankFree_eq_nil_iff.2 (List.all_eq_true.1 hgap)
    have hpiece := h.blankFree_eq
    rw [blankFree] at hnone hpiece ⊢
    rw [List.filter_cons_of_pos (by rw [hc]; rfl), List.filter_append, hnone, hpiece]
    rfl
  head?_eq := rfl
  getLast?_eq := by
    rw [List.getLast?_cons, List.getLast?_cons, List.getLast?_append, ← h.getLast?_eq,
      List.getLast?_eq_some_getLast h.ne_nil]
    rfl

end Spells

namespace Mark

variable {offset : Nat} {cs : List Char} {m : Mark} {ms taken later : List Mark}

theorem all_isBlank_of_ofChars (h : ofChars offset cs = []) : cs.all isBlank = true := by
  induction cs generalizing offset with
  | nil => rfl
  | cons c cs ih =>
    rw [ofChars] at h
    by_cases hc : isBlank c = true
    · rw [if_pos hc] at h
      rw [List.all_cons, hc, ih h]
      rfl
    · rw [if_neg hc] at h
      cases h

/-- The first mark comes behind blanks. -/
theorem ofChars_eq_cons (h : ofChars offset cs = m :: ms) :
    ∃ gap rest, cs = gap ++ m.char :: rest ∧ gap.all isBlank = true ∧ isBlank m.char = false ∧
      m.offset = offset + byteSize gap ∧ ofChars m.stop rest = ms := by
  induction cs generalizing offset with
  | nil => cases h
  | cons c cs ih =>
    rw [ofChars] at h
    by_cases hc : isBlank c = true
    · rw [if_pos hc] at h
      obtain ⟨gap, rest, rfl, hgap, hm, hoffset, hrest⟩ := ih h
      refine ⟨c :: gap, rest, rfl, ?_, hm, ?_, hrest⟩
      · rw [List.all_cons, hc, hgap]
        rfl
      · rw [hoffset, Text.byteSize_cons, Nat.add_assoc]
    · rw [if_neg hc] at h
      cases h
      exact ⟨[], cs, rfl, rfl, Bool.eq_false_iff.2 hc, rfl, rfl⟩

theorem span_cons_cons (m m' : Mark) (ms : List Mark) : span (m :: m' :: ms) = ⟨m.offset, (span (m' :: ms)).stop⟩ := by
  simp [span]

/-- The first lexeme takes as many marks as it has characters and leaves the others. -/
theorem take_drop_of_spell {l : Lexeme} {ls : List Lexeme} (h : (l :: ls).flatMap Lexeme.text = ms.map char) :
    (ms.take l.text.length).map char = l.text ∧ ls.flatMap Lexeme.text = (ms.drop l.text.length).map char := by
  rw [List.map_take, List.map_drop, ← h, List.flatMap_cons, List.take_left, List.drop_left]
  exact ⟨rfl, rfl⟩

/-- The marks that come first have the range of a piece behind blanks, which spells their characters. -/
theorem ofChars_eq_append (hne : taken ≠ []) (h : ofChars offset cs = taken ++ later) :
    ∃ gap piece rest, cs = gap ++ (piece ++ rest) ∧ gap.all isBlank = true ∧ Spells piece (taken.map char) ∧
      span taken = ⟨offset + byteSize gap, offset + byteSize gap + byteSize piece⟩ ∧
      ofChars (offset + byteSize gap + byteSize piece) rest = later := by
  induction taken generalizing offset cs with
  | nil => exact absurd rfl hne
  | cons m taken ih =>
    obtain ⟨gap, rest, rfl, hgap, hm, hoffset, hrest⟩ := ofChars_eq_cons h
    cases taken with
    | nil =>
      have hstop : m.stop = offset + byteSize gap + byteSize [m.char] := by
        simp [stop, hoffset]
      refine ⟨gap, [m.char], rest, rfl, hgap, .singleton hm, ?_, hstop ▸ hrest⟩
      rw [← hstop, ← hoffset]
      rfl
    | cons m' taken =>
      obtain ⟨gap', piece, rest', rfl, hgap', hpiece, hspan, hlater⟩ := ih (List.cons_ne_nil _ _) hrest
      have hstop : m.stop + byteSize gap' + byteSize piece =
          offset + byteSize gap + byteSize (m.char :: (gap' ++ piece)) := by
        simp only [stop, hoffset, Text.byteSize_cons, Text.byteSize_append]
        omega
      refine ⟨gap, m.char :: (gap' ++ piece), rest', by simp, hgap, hpiece.cons hm hgap', ?_, hstop ▸ hlater⟩
      rw [span_cons_cons, hspan, ← hstop, ← hoffset]

end Mark

/-! ## How tokens lie in the source -/

/-- All bytes of the second range are in the first one. -/
def Text.Span.Covers (s t : Span) : Prop := s.start ≤ t.start ∧ t.stop ≤ s.stop

namespace Token

variable {offset : Nat} {cs : List Char} {ts : List Token}

/-- The tokens lie in these characters, the first of which stands at `offset`: pieces that spell them one after the
other, with nothing but blanks before, between and behind. -/
inductive Laid : (offset : Nat) → List Char → List Token → Prop
  | nil {offset : Nat} {cs : List Char} (hblank : cs.all isBlank = true) : Laid offset cs []
  | cons {offset : Nat} {gap piece rest : List Char} {t : Token} {ts : List Token} (hgap : gap.all isBlank = true)
    (hpiece : Spells piece t.text.toList)
    (hspan : t.span = ⟨offset + byteSize gap, offset + byteSize gap + byteSize piece⟩)
    (hlater : Laid (offset + byteSize gap + byteSize piece) rest ts) : Laid offset (gap ++ (piece ++ rest)) (t :: ts)

/-- Lexemes that spell the marks lie where the marks are. -/
theorem laid_place {ls : List Lexeme} {ms : List Mark} (hms : Mark.ofChars offset cs = ms)
    (hspell : ls.flatMap Lexeme.text = ms.map Mark.char) (hne : ∀ l ∈ ls, l.text ≠ []) :
    Laid offset cs (place ms ls) := by
  induction ls generalizing offset cs ms with
  | nil =>
    obtain rfl : ms = [] := List.map_eq_nil_iff.1 hspell.symm
    exact .nil (Mark.all_isBlank_of_ofChars hms)
  | cons l ls ih =>
    obtain ⟨htaken, hlater⟩ := Mark.take_drop_of_spell hspell
    have htext : ms.take l.text.length ≠ [] := by
      intro hnil
      rw [hnil] at htaken
      exact hne l List.mem_cons_self htaken.symm
    rw [← List.take_append_drop l.text.length ms] at hms
    obtain ⟨gap, piece, rest, rfl, hgap, hpiece, hspan, hrest⟩ := Mark.ofChars_eq_append htext hms
    rw [htaken] at hpiece
    exact .cons hgap (by simpa using hpiece) hspan (ih hrest hlater fun l hl => hne l (List.mem_cons_of_mem _ hl))

/-- A character that is not blank comes behind all the blanks in front. -/
theorem exists_of_blanks_append {gap rest before after : List Char} {c : Char} (hgap : gap.all isBlank = true)
    (hc : isBlank c = false) (h : gap ++ rest = before ++ c :: after) :
    ∃ mid, before = gap ++ mid ∧ rest = mid ++ c :: after := by
  induction gap generalizing before with
  | nil => exact ⟨before, rfl, h⟩
  | cons g gap ih =>
    rw [List.all_cons, Bool.and_eq_true] at hgap
    cases before with
    | nil =>
      injection h with hg
      rw [hg, hc] at hgap
      cases hgap.1
    | cons b before =>
      injection h with hg htail
      obtain ⟨mid, rfl, hrest⟩ := ih hgap.2 htail
      exact ⟨mid, by rw [hg]; rfl, hrest⟩

namespace Laid

theorem exists_of_mem (h : Laid offset cs ts) {t : Token} (ht : t ∈ ts) :
    ∃ before piece after, cs = before ++ (piece ++ after) ∧ Spells piece t.text.toList ∧
      t.span = ⟨offset + byteSize before, offset + byteSize before + byteSize piece⟩ := by
  induction h with
  | nil => cases ht
  | @cons offset gap piece rest u ts hgap hpiece hspan hlater ih =>
    rcases List.mem_cons.1 ht with rfl | ht
    · exact ⟨gap, piece, rest, rfl, hpiece, hspan⟩
    · obtain ⟨before, piece', after, rfl, hpiece', hspan'⟩ := ih ht
      refine ⟨gap ++ (piece ++ before), piece', after, by simp, hpiece', ?_⟩
      rw [hspan', Text.byteSize_append, Text.byteSize_append]
      simp only [Nat.add_assoc]

theorem pairwise (h : Laid offset cs ts) : ts.Pairwise fun t u => t.span.stop ≤ u.span.start := by
  induction h with
  | nil => exact .nil
  | cons hgap hpiece hspan hlater ih =>
    refine .cons (fun u hu => ?_) ih
    obtain ⟨before, piece', after, -, -, hspan'⟩ := hlater.exists_of_mem hu
    rw [hspan, hspan']
    exact Nat.le_add_right _ _

/-- Every character that is not blank is in a token. -/
theorem exists_covers (h : Laid offset cs ts) {before after : List Char} {c : Char} (hcs : cs = before ++ c :: after)
    (hc : isBlank c = false) :
    ∃ t ∈ ts, t.span.Covers ⟨offset + byteSize before, offset + byteSize before + c.utf8Size⟩ := by
  induction h generalizing before with
  | nil hblank =>
    rw [hcs, List.all_append, List.all_cons, hc] at hblank
    simp at hblank
  | @cons offset gap piece rest u ts hgap hpiece hspan hlater ih =>
    obtain ⟨mid, rfl, hmid⟩ := exists_of_blanks_append hgap hc hcs
    -- the character is in the first token or behind it
    have hbehind : ∀ more, mid = piece ++ more → rest = more ++ c :: after → ∃ t ∈ u :: ts,
        t.span.Covers ⟨offset + byteSize (gap ++ mid), offset + byteSize (gap ++ mid) + c.utf8Size⟩ := by
      rintro more rfl hrest
      obtain ⟨t, ht, hcovers⟩ := ih hrest
      refine ⟨t, List.mem_cons_of_mem _ ht, ?_⟩
      simp only [Text.byteSize_append, ← Nat.add_assoc]
      exact hcovers
    rcases List.append_eq_append_iff.1 hmid with ⟨more, hmore, hrest⟩ | ⟨more, rfl, hafter⟩
    · exact hbehind more hmore hrest
    · cases more with
      | nil => exact hbehind [] (by simp) hafter.symm
      | cons d more =>
        injection hafter with hd
        refine ⟨u, List.mem_cons_self, ?_⟩
        rw [hspan, ← hd]
        simp only [Span.Covers, Text.byteSize_append, Text.byteSize_cons]
        omega

/-- No byte is in two tokens. -/
theorem eq_of_covers (h : Laid offset cs ts) {t u : Token} (ht : t ∈ ts) (hu : u ∈ ts) {s : Span}
    (hs : s.start < s.stop) (hts : t.span.Covers s) (hus : u.span.Covers s) : u = t := by
  have hordered := List.pairwise_iff_getElem.1 h.pairwise
  obtain ⟨i, hi, rfl⟩ := List.getElem_of_mem ht
  obtain ⟨j, hj, rfl⟩ := List.getElem_of_mem hu
  obtain ⟨hts₁, hts₂⟩ := hts
  obtain ⟨hus₁, hus₂⟩ := hus
  rcases Nat.lt_trichotomy i j with hij | rfl | hij
  · have := hordered i j hi hj hij
    omega
  · rfl
  · have := hordered j i hj hi hij
    omega

end Laid

/-! ## Tokens in the text that was typed -/

/-- The range of a token goes from the first character of the token to just behind its last one. -/
structure PointsInto (t : Token) (source : String) : Prop where
  isIn : t.span.IsIn source
  start_lt_stop : t.span.start < t.span.stop
  exists_piece : ∃ piece : String, t.span.bytes source = piece.toByteArray ∧
    blankFree piece.toList = t.text.toList ∧
    piece.toList.head? = t.text.toList.head? ∧ piece.toList.getLast? = t.text.toList.getLast?

theorem Laid.pointsInto {source : String} (h : Laid 0 source.toList ts) {t : Token} (ht : t ∈ ts) :
    t.PointsInto source := by
  obtain ⟨before, piece, after, hsource, hpiece, hspan⟩ := h.exists_of_mem ht
  have hsplit : source = .ofList before ++ .ofList piece ++ .ofList after := by
    rw [← String.ofList_toList (s := source), hsource, String.ofList_append, String.ofList_append, String.append_assoc]
  have hbehind : t.span = Span.behind (.ofList before) (.ofList piece) := by
    rw [hspan, Nat.zero_add]
    rfl
  refine ⟨?_, ?_, .ofList piece, ?_, ?_, ?_, ?_⟩
  · rw [hbehind, hsplit]
    exact Span.isIn_behind _ _ _
  · have := Text.byteSize_pos hpiece.ne_nil
    rw [hspan]
    simp only
    omega
  · rw [hbehind, hsplit]
    exact Span.bytes_behind _ _ _
  · rw [String.toList_ofList]
    exact hpiece.blankFree_eq
  · rw [String.toList_ofList]
    exact hpiece.head?_eq
  · rw [String.toList_ofList]
    exact hpiece.getLast?_eq

end Token

/-! ## The way back from the blank-free text -/

/-- The offsets of the bytes of a mark's character. -/
def Mark.offsets (m : Mark) : List Nat := (List.range m.char.utf8Size).map (m.offset + ·)

/-- Where each byte of the blank-free text stands in the source. -/
def origin (source : String) : List Nat := (Mark.ofChars 0 source.toList).flatMap Mark.offsets

/-- A piece of the blank-free text with `read` before it has a range in the source, which is looked up at its first byte
and at its last one. -/
structure Traced (source read text : String) (span : Span) : Prop where
  isIn : (Span.behind read text).IsIn (.ofList (blankFree source.toList))
  bytes_eq : (Span.behind read text).bytes (.ofList (blankFree source.toList)) = text.toByteArray
  first : (origin source)[read.utf8ByteSize]? = some span.start
  last : ((origin source)[read.utf8ByteSize + text.utf8ByteSize - 1]?).map (· + 1) = some span.stop

namespace Mark

theorem length_flatMap_offsets (ms : List Mark) : (ms.flatMap offsets).length = byteSize (ms.map char) := by
  induction ms with
  | nil => rfl
  | cons m ms ih =>
    rw [List.flatMap_cons, List.length_append, ih, List.map_cons, Text.byteSize_cons]
    simp [offsets]

theorem head?_flatMap_offsets {ms : List Mark} (h : ms ≠ []) : (ms.flatMap offsets).head? = some (span ms).start := by
  cases ms with
  | nil => exact absurd rfl h
  | cons m ms =>
    obtain ⟨n, hn⟩ := Nat.exists_eq_succ_of_ne_zero (Nat.ne_of_gt m.char.utf8Size_pos)
    simp [offsets, hn, List.range_succ_eq_map, span]

theorem getLast?_flatMap_offsets {ms : List Mark} (h : ms ≠ []) :
    (ms.flatMap offsets).getLast?.map (· + 1) = some (span ms).stop := by
  obtain ⟨ms, m, rfl⟩ := (List.eq_nil_or_concat ms).resolve_left h
  obtain ⟨n, hn⟩ := Nat.exists_eq_succ_of_ne_zero (Nat.ne_of_gt m.char.utf8Size_pos)
  simp [offsets, hn, List.range_succ, span, stop]
  omega

/-- Marks in the middle trace their characters back to their range. -/
theorem traced {source : String} {before taken later : List Mark} (hne : taken ≠ [])
    (h : ofChars 0 source.toList = before ++ (taken ++ later)) :
    Traced source (.ofList (before.map char)) (.ofList (taken.map char)) (span taken) := by
  have htyped : String.ofList (blankFree source.toList) =
      .ofList (before.map char) ++ .ofList (taken.map char) ++ .ofList (later.map char) := by
    rw [← map_char_ofChars 0, h]
    simp [String.ofList_append, String.append_assoc]
  have horigin : origin source = before.flatMap offsets ++ (taken.flatMap offsets ++ later.flatMap offsets) := by
    rw [origin, h, List.flatMap_append, List.flatMap_append]
  have hread : (String.ofList (before.map char)).utf8ByteSize = (before.flatMap offsets).length :=
    (length_flatMap_offsets before).symm
  have htext : (String.ofList (taken.map char)).utf8ByteSize = (taken.flatMap offsets).length :=
    (length_flatMap_offsets taken).symm
  have hpos : 0 < (taken.flatMap offsets).length := by
    rw [length_flatMap_offsets]
    exact Text.byteSize_pos (by simpa using hne)
  refine ⟨?_, ?_, ?_, ?_⟩
  · rw [htyped]
    exact Span.isIn_behind _ _ _
  · rw [htyped]
    exact Span.bytes_behind _ _ _
  · rw [horigin, hread, List.getElem?_append_right (Nat.le_refl _), Nat.sub_self, ← List.head?_eq_getElem?,
      List.head?_append, head?_flatMap_offsets hne]
    rfl
  · have hlast :
        (before.flatMap offsets).length + (taken.flatMap offsets).length - 1 - (before.flatMap offsets).length =
          (taken.flatMap offsets).length - 1 := by omega
    rw [horigin, hread, htext, List.getElem?_append_right (by omega), hlast, List.getElem?_append_left (by omega),
      ← List.getLast?_eq_getElem?, getLast?_flatMap_offsets hne]

end Mark

namespace Token

/-- The texts of tokens, one behind the other. -/
def spelling (ts : List Token) : String := .ofList (ts.flatMap fun t => t.text.toList)

/-- A token among others was read from marks among others. -/
theorem exists_marks_of_place {ls : List Lexeme} {ms : List Mark} (hspell : ls.flatMap Lexeme.text = ms.map Mark.char)
    {before after : List Token} {t : Token} (h : place ms ls = before ++ t :: after) :
    ∃ read taken later, ms = read ++ (taken ++ later) ∧ read.map Mark.char = before.flatMap (fun t => t.text.toList) ∧
      taken.map Mark.char = t.text.toList ∧ t.span = Mark.span taken := by
  induction ls generalizing ms before with
  | nil => simp [place] at h
  | cons l ls ih =>
    obtain ⟨htaken, hlater⟩ := Mark.take_drop_of_spell hspell
    rw [place] at h
    cases before with
    | nil =>
      cases h
      refine ⟨[], ms.take l.text.length, ms.drop l.text.length, (List.take_append_drop _ _).symm, rfl, ?_, rfl⟩
      rw [htaken, String.toList_ofList]
    | cons u before =>
      injection h with hu htail
      obtain ⟨read, taken, later, hdrop, hread, htext, hspan⟩ := ih hlater htail
      refine ⟨ms.take l.text.length ++ read, taken, later, ?_, ?_, htext, hspan⟩
      · rw [List.append_assoc, ← hdrop, List.take_append_drop]
      · rw [List.map_append, htaken, hread, List.flatMap_cons, ← hu, String.toList_ofList]

end Token

/-! ## Reading tokens -/

theorem Lexeme.text_ne_nil_of_mem_split {cs : List Char} {l : Lexeme} (h : l ∈ (split cs).1) : l.text ≠ [] := by
  fun_induction split cs with
  | case1 => cases h
  | case2 => cases h
  | case3 c cs kind n hlongest after ih =>
    rcases List.mem_cons.1 h with rfl | h
    · exact List.cons_ne_nil _ _
    · exact ih h

namespace Token

variable {source text : String} {ts : List Token} {span : Span}

theorem exists_lexemes_of_scan (h : scan source = .ok ts) :
    ∃ ls, ls.flatMap Lexeme.text = (Mark.ofChars 0 source.toList).map Mark.char ∧ (∀ l ∈ ls, l.text ≠ []) ∧
      ts = place (Mark.ofChars 0 source.toList) ls := by
  rw [scan] at h
  split at h
  · cases h
  · rename_i m ms hmarks
    simp only at h
    split at h
    · rename_i ls hsplit
      cases h
      have hspell := Lexeme.flatMap_text_split ((m :: ms).map Mark.char)
      rw [hsplit, List.append_nil] at hspell
      refine ⟨ls, by rw [hmarks]; exact hspell, fun l hl => ?_, by rw [hmarks]⟩
      have hmem : l ∈ (Lexeme.split ((m :: ms).map Mark.char)).1 := by rw [hsplit]; exact hl
      exact Lexeme.text_ne_nil_of_mem_split hmem
    · cases h

theorem laid_of_scan (h : scan source = .ok ts) : Laid 0 source.toList ts := by
  obtain ⟨ls, hspell, hne, rfl⟩ := exists_lexemes_of_scan h
  exact laid_place rfl hspell hne

theorem exists_mark_of_scan_unexpected (h : scan source = .error (.unexpectedCharacter text span)) :
    ∃ read m later, Mark.ofChars 0 source.toList = read ++ ([m] ++ later) ∧ text = .ofList [m.char] ∧
      span = Mark.span [m] := by
  rw [scan] at h
  split at h
  · cases h
  · rename_i m₀ ms hmarks
    simp only at h
    split at h
    · cases h
    · rename_i ls c cs hsplit
      obtain ⟨m, -, rfl, htake⟩ := Mark.exists_of_split hsplit
      rw [htake] at h
      cases h
      generalize (m₀ :: ms).length - (m.char :: cs).length = k at htake
      refine ⟨(m₀ :: ms).take k, m, ((m₀ :: ms).drop k).drop 1, ?_, String.singleton_eq_ofList, rfl⟩
      rw [hmarks, ← htake, List.take_append_drop, List.take_append_drop]

/-- The ranges of tokens divide the characters of the source among them, and are those that the table of origins gives
for the places of the tokens in the blank-free text. -/
structure Exact (source : String) (ts : List Token) : Prop where
  pointsInto : ∀ t ∈ ts, t.PointsInto source
  ordered : ts.Pairwise fun t u => t.span.stop ≤ u.span.start
  covers : ∀ before c after, source = before ++ .singleton c ++ after → isBlank c = false →
    ∃ t ∈ ts, t.span.Covers (.behind before (.singleton c)) ∧
      ∀ u ∈ ts, u.span.Covers (.behind before (.singleton c)) → u = t
  traced : ∀ before t after, ts = before ++ t :: after → Traced source (spelling before) t.text t.span

theorem exact_of_scan (h : scan source = .ok ts) : Exact source ts := by
  have hlaid := laid_of_scan h
  obtain ⟨ls, hspell, -, rfl⟩ := exists_lexemes_of_scan h
  refine ⟨fun t ht => hlaid.pointsInto ht, hlaid.pairwise, ?_, ?_⟩
  · intro before c after hsource hc
    have hchars : source.toList = before.toList ++ c :: after.toList := by
      rw [hsource]
      simp
    have hplace : (⟨0 + byteSize before.toList, 0 + byteSize before.toList + c.utf8Size⟩ : Span) =
        .behind before (.singleton c) := by
      rw [Span.behind, Nat.zero_add, byteSize, String.ofList_toList, String.utf8ByteSize_singleton]
    obtain ⟨t, ht, hcovers⟩ := hlaid.exists_covers hchars hc
    rw [hplace] at hcovers
    refine ⟨t, ht, hcovers, fun u hu hcovers' => hlaid.eq_of_covers ht hu ?_ hcovers hcovers'⟩
    have := c.utf8Size_pos
    rw [← hplace]
    simp only
    omega
  · intro before t after hts
    obtain ⟨read, taken, later, hmarks, hread, htext, hspan⟩ := exists_marks_of_place hspell hts
    have htaken : taken ≠ [] := by
      obtain ⟨-, piece, -, -, hpiece, -⟩ := hlaid.exists_of_mem (hts ▸ List.mem_append_cons_self)
      rintro rfl
      exact hpiece.chars_ne_nil htext.symm
    have htraced := Mark.traced htaken hmarks
    rw [hread, htext, String.ofList_toList, ← hspan] at htraced
    exact htraced

/-- **The ranges of tokens and errors are exact to the byte.** The tokens that are read divide the characters of the
source that are not blank among them. A character that no token can hold is reported with the bytes where it stands. -/
theorem scan_ranges_exact (source : String) :
    (∀ ts, scan source = .ok ts → Exact source ts) ∧
    ∀ text span, scan source = .error (.unexpectedCharacter text span) →
      (∃ c before after, text = .singleton c ∧ isBlank c = false ∧ source = before ++ text ++ after ∧
        span = .behind before text ∧ span.length = c.utf8Size) ∧
      ∃ read, Traced source read text span := by
  refine ⟨fun ts h => exact_of_scan h, fun text span h => ⟨?_, ?_⟩⟩
  · obtain ⟨c, before, after, rfl, hc, hsource, rfl⟩ := exists_of_scan_unexpected h
    refine ⟨c, before, after, rfl, hc, hsource, rfl, ?_⟩
    rw [Span.length, Span.behind, String.utf8ByteSize_singleton]
    exact Nat.add_sub_cancel_left _ _
  · obtain ⟨read, m, later, hmarks, rfl, rfl⟩ := exists_mark_of_scan_unexpected h
    exact ⟨_, Mark.traced (List.cons_ne_nil _ _) hmarks⟩

/-- A wide blank of three bytes inside a name, and a character of two bytes that no token can hold. -/
theorem scan_ranges_exact_wide :
    Exact "fo\u3000o * 1"
        [⟨.name, "foo", ⟨0, 6⟩⟩, ⟨.arith .mul, "*", ⟨7, 8⟩⟩, ⟨.number, "1", ⟨9, 10⟩⟩] ∧
      ∃ read, Traced "1 + é" read "é" ⟨4, 6⟩ :=
  ⟨(scan_ranges_exact _).1 _ (by decide +kernel), ((scan_ranges_exact _).2 _ _ (by decide +kernel)).2⟩

end Token

end BlockScript
