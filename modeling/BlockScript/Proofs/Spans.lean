import BlockScript.Expr.Token

/-!
# Ranges and the characters they point at

A range of bytes lies in a text if it begins and ends between two characters of it (`Text.Span.IsIn`); the range of a
piece behind what comes before it does, and holds the bytes of the piece (`isIn_behind`, `bytes_behind`).

Dropping the blanks of a source does not lose sight of where characters stand: a mark has the offset of its character
in the source, however many bytes the characters before it take (`Mark.exists_of_mem_ofChars`). So **the range of a
character that no token can hold is the place of that character** (`Token.exists_of_scan_unexpected`).
-/

namespace BlockScript

open Text (Span isBlank)

namespace Text.Span

/-- The range begins and ends between characters of the text. -/
structure IsIn (s : Span) (text : String) : Prop where
  start_le_stop : s.start ≤ s.stop
  start_isValid : String.Pos.Raw.IsValid text ⟨s.start⟩
  stop_isValid : String.Pos.Raw.IsValid text ⟨s.stop⟩

/-- The bytes of the text in the range. -/
def bytes (s : Span) (text : String) : ByteArray := text.toByteArray.extract s.start s.stop

/-- The range of a piece of text that comes behind another one. -/
def behind (before piece : String) : Span := ⟨before.utf8ByteSize, before.utf8ByteSize + piece.utf8ByteSize⟩

theorem isIn_behind (before piece after : String) : (behind before piece).IsIn (before ++ piece ++ after) where
  start_le_stop := Nat.le_add_right _ _
  start_isValid := String.Pos.Raw.isValid_iff_exists_append.2 ⟨before, piece ++ after, String.append_assoc, rfl⟩
  stop_isValid := by
    refine String.Pos.Raw.isValid_iff_exists_append.2 ⟨before ++ piece, after, rfl, ?_⟩
    rw [behind, ← String.utf8ByteSize_append]
    rfl

theorem bytes_behind (before piece after : String) :
    (behind before piece).bytes (before ++ piece ++ after) = piece.toByteArray := by
  have hsize : (before ++ piece).toByteArray.size = before.utf8ByteSize + piece.utf8ByteSize := by
    rw [String.size_toByteArray, String.utf8ByteSize_append]
  have hpiece : (before ++ piece).toByteArray.extract before.utf8ByteSize
      (before.utf8ByteSize + piece.utf8ByteSize) = piece.toByteArray := by
    rw [String.toByteArray_append]
    exact ByteArray.extract_append_eq_right String.size_toByteArray.symm (by simp)
  rw [bytes, behind, String.toByteArray_append, ByteArray.extract_append, hpiece, hsize, Nat.sub_self,
    ByteArray.extract_eq_empty_iff.2 (by simp), ByteArray.append_empty]

end Text.Span

/-! ## Marks -/

theorem utf8ByteSize_ofList_cons (c : Char) (cs : List Char) :
    (String.ofList (c :: cs)).utf8ByteSize = c.utf8Size + (String.ofList cs).utf8ByteSize := by
  rw [String.ofList_cons, String.utf8ByteSize_append, String.utf8ByteSize_singleton]

/-- A mark stands at its character, behind all the bytes before it. -/
theorem Mark.exists_of_mem_ofChars {m : Mark} {offset : Nat} {cs : List Char} (h : m ∈ ofChars offset cs) :
    isBlank m.char = false ∧ ∃ before after, cs = before ++ m.char :: after ∧
      m.offset = offset + (String.ofList before).utf8ByteSize := by
  induction cs generalizing offset with
  | nil => cases h
  | cons c cs ih =>
    -- a mark further on is behind this character too
    have hlater : m ∈ ofChars (offset + c.utf8Size) cs → isBlank m.char = false ∧ ∃ before after,
        c :: cs = before ++ m.char :: after ∧ m.offset = offset + (String.ofList before).utf8ByteSize := by
      intro hm
      obtain ⟨hblank, before, after, rfl, hoffset⟩ := ih hm
      refine ⟨hblank, c :: before, after, rfl, ?_⟩
      rw [hoffset, utf8ByteSize_ofList_cons, Nat.add_assoc]
    rw [ofChars] at h
    by_cases hc : isBlank c = true
    · rw [if_pos hc] at h
      exact hlater h
    · rw [if_neg hc, List.mem_cons] at h
      rcases h with rfl | h
      · exact ⟨Bool.eq_false_iff.2 hc, [], cs, rfl, rfl⟩
      · exact hlater h

/-- The mark of the first character that is left when the lexemes have been cut off. -/
theorem Mark.exists_of_split {ms : List Mark} {ls : List Lexeme} {c : Char} {cs : List Char}
    (h : Lexeme.split (ms.map char) = (ls, c :: cs)) :
    ∃ m ∈ ms, m.char = c ∧ (ms.drop (ms.length - (c :: cs).length)).take 1 = [m] := by
  have hspell : ls.flatMap Lexeme.text ++ c :: cs = ms.map char := by
    have := Lexeme.flatMap_text_split (ms.map char)
    rwa [h] at this
  have hread : ms.length - (c :: cs).length = (ls.flatMap Lexeme.text).length := by
    have := congrArg List.length hspell
    rw [List.length_append, List.length_map] at this
    omega
  have hdrop : (ms.drop (ms.length - (c :: cs).length)).map char = c :: cs := by
    rw [hread, List.map_drop, ← hspell, List.drop_left]
  cases hms : ms.drop (ms.length - (c :: cs).length) with
  | nil => rw [hms] at hdrop; cases hdrop
  | cons m ms' =>
    rw [hms, List.map_cons] at hdrop
    injection hdrop with hc
    exact ⟨m, List.mem_of_mem_drop (hms ▸ List.mem_cons_self), hc, rfl⟩

namespace Token

/-- **The range of a character that no token can hold is the place of that character.** -/
theorem exists_of_scan_unexpected {source text : String} {span : Span}
    (h : scan source = .error (.unexpectedCharacter text span)) :
    ∃ c before after, text = String.singleton c ∧ isBlank c = false ∧ source = before ++ text ++ after ∧
      span = Span.behind before text := by
  rw [scan] at h
  split at h
  · cases h
  · rename_i m₀ ms hmarks
    simp only at h
    split at h
    · cases h
    · rename_i ls c cs hsplit
      obtain ⟨m, hm, rfl, htake⟩ := Mark.exists_of_split hsplit
      rw [← hmarks] at hm
      obtain ⟨hblank, before, after, hsource, hoffset⟩ := Mark.exists_of_mem_ofChars hm
      rw [htake] at h
      cases h
      refine ⟨m.char, String.ofList before, String.ofList after, rfl, hblank, ?_, ?_⟩
      · rw [← String.ofList_toList (s := source), hsource, String.ofList_append, String.ofList_cons,
          String.append_assoc]
        rfl
      · have hsize : m.char.toString.utf8ByteSize = m.char.utf8Size := String.utf8ByteSize_singleton
        rw [Span.behind, hsize, ← Nat.zero_add (String.ofList before).utf8ByteSize, ← hoffset]
        rfl

end Token

end BlockScript
