import BlockScript.Json.Print
import BlockScript.Json.Token

/-!
# Reading back the tokens of a written document

What is written for a document is cut into tokens again. `Scans cs ts` says that a stretch of text is read as some
tokens whatever comes behind it, so stretches can be put together (`Scans.append`): blanks give no token, brackets and
separators one each, and a string in quotes gives its text back, since every character is written in a way that stands
for it (`standsFor_quotedChar`). From these, **a written document is read as its tokens** (`scans_write`), however it is
laid out, as long as line breaks are blank.

The documents meant here are those made of texts, lists and records (`Textual`), and programs are of this kind.
-/

namespace BlockScript.Json

/-! ## Strings -/

/-- An escape that is no surrogate stands for a character by itself, whatever comes behind it. -/
theorem assemble?_escaped {code : Nat} (h : code < 0x20) (us : List Unit16) :
    assemble? (.escaped code :: us) = (assemble? us).map (Char.ofNat code :: ·) := by
  have hhigh : isHighSurrogate code = false := by
    simp only [isHighSurrogate, Bool.and_eq_false_iff, decide_eq_false_iff_not]
    omega
  have hlow : isLowSurrogate code = false := by
    simp only [isLowSurrogate, Bool.and_eq_false_iff, decide_eq_false_iff_not]
    omega
  match us with
  | .escaped low :: us => simp [assemble?, hhigh, hlow]
  | .plain c :: us => simp [assemble?, hhigh, hlow]
  | [] => simp [assemble?, hhigh, hlow]

/-- The characters `cs` stand for `c` inside a string. -/
def StandsFor (cs : List Char) (c : Char) : Prop :=
  ∃ u, (∀ rest, stringBody? (cs ++ rest) = (stringBody? rest).map fun r => (u :: r.1, r.2)) ∧
    ∀ us, assemble? (u :: us) = (assemble? us).map (c :: ·)

theorem standsFor_shortEscape {e c : Char} (h : shortEscape? e = some c) (hu : e ≠ 'u') :
    StandsFor ['\\', e] c := by
  refine ⟨.plain c, fun rest => ?_, fun us => rfl⟩
  change stringBody? ('\\' :: e :: rest) = _
  rw [stringBody?]
  · rw [h]
    cases stringBody? rest <;> rfl
  · -- four digits behind a `u` would be an escape of another kind
    rintro _ _ _ _ _ rfl -
    exact hu rfl

theorem hex?_control : ∀ n < 0x20, Text.hex? ['0', '0', Nat.digitChar (n / 16), Nat.digitChar (n % 16)] = some n := by
  decide

theorem standsFor_control {c : Char} (h : c.toNat < 0x20) :
    StandsFor ['\\', 'u', '0', '0', Nat.digitChar (c.toNat / 16), Nat.digitChar (c.toNat % 16)] c := by
  refine ⟨.escaped c.toNat, fun rest => ?_, fun us => ?_⟩
  · change stringBody? ('\\' :: 'u' :: '0' :: '0' :: _ :: _ :: rest) = _
    rw [stringBody?, hex?_control c.toNat h]
    cases stringBody? rest <;> rfl
  · rw [assemble?_escaped h, Char.ofNat_toNat]

theorem standsFor_plain {c : Char} (hquote : c ≠ '"') (hslash : c ≠ '\\') (h : ¬ c.toNat < 0x20) :
    StandsFor [c] c := by
  refine ⟨.plain c, fun rest => ?_, fun us => rfl⟩
  change stringBody? (c :: rest) = _
  rw [stringBody?]
  · rw [if_neg h]
    cases stringBody? rest <;> rfl
  · exact hquote
  · exact fun _ _ _ _ _ hc => absurd hc hslash
  · exact fun _ _ hc => absurd hc hslash

theorem standsFor_quotedChar (c : Char) : StandsFor (quotedChar c) c := by
  unfold quotedChar
  split
  case h_8 hquote hslash _ _ _ _ _ =>
    split
    · exact standsFor_control ‹_›
    · exact standsFor_plain hquote hslash ‹_›
  all_goals exact standsFor_shortEscape rfl (by decide)

/-- **What is written between the quotes of a string is read back.** -/
theorem stringBody?_quoted (s rest : List Char) :
    ∃ us, stringBody? (s.flatMap quotedChar ++ '"' :: rest) = some (us, rest) ∧ assemble? us = some s := by
  induction s with
  | nil => exact ⟨[], by rw [List.flatMap_nil, List.nil_append, stringBody?], rfl⟩
  | cons c s ih =>
    obtain ⟨us, hread, hassemble⟩ := ih
    obtain ⟨u, hbody, htext⟩ := standsFor_quotedChar c
    refine ⟨u :: us, ?_, ?_⟩
    · rw [List.flatMap_cons, List.append_assoc, hbody, hread]
      rfl
    · rw [htext, hassemble]
      rfl

/-! ## Stretches of text -/

/-- The characters `cs` are read as the tokens `ts`, whatever comes behind them. -/
def Scans (cs : List Char) (ts : List Token) : Prop := ∀ rest, scan (cs ++ rest) = (scan rest).map (ts ++ ·)

section Scans

variable {c : Char} {cs cs' after : List Char} {t : Token} {ts ts' : List Token}

theorem scan_space (h : isSpace c = true) : scan (c :: cs) = scan cs := by
  rw [scan, if_pos h]

theorem scan_token (hspace : isSpace c = false) (h : token? c cs = some (t, after)) :
    scan (c :: cs) = (scan after).map (t :: ·) := by
  rw [scan, if_neg (by rw [hspace]; exact Bool.false_ne_true)]
  split
  · next h' =>
    rw [h] at h'
    cases h'
  · next h' =>
    rw [h] at h'
    cases h'
    rfl

theorem scans_nil : Scans [] [] := by
  intro rest
  simp

theorem Scans.append (h : Scans cs ts) (h' : Scans cs' ts') : Scans (cs ++ cs') (ts ++ ts') := by
  intro rest
  rw [List.append_assoc, h, h', Option.map_map]
  congr 1
  funext later
  exact (List.append_assoc ts ts' later).symm

theorem scans_spaces (h : cs.all isSpace = true) : Scans cs [] := by
  intro rest
  induction cs with
  | nil => simp
  | cons c cs ih =>
    rw [List.all_cons, Bool.and_eq_true] at h
    rw [List.cons_append, scan_space h.1, ih h.2]

/-- A character that is a token by itself. -/
theorem scans_singleton (hspace : isSpace c = false) (h : ∀ cs, token? c cs = some (t, cs)) : Scans [c] [t] :=
  fun rest => scan_token hspace (h rest)

theorem scans_beginArray : Scans ['['] [.beginArray] := scans_singleton rfl fun _ => rfl

theorem scans_endArray : Scans [']'] [.endArray] := scans_singleton rfl fun _ => rfl

theorem scans_beginObject : Scans ['\x7b'] [.beginObject] := scans_singleton rfl fun _ => rfl

theorem scans_endObject : Scans ['\x7d'] [.endObject] := scans_singleton rfl fun _ => rfl

theorem scans_comma : Scans [','] [.comma] := scans_singleton rfl fun _ => rfl

theorem scans_colon : Scans [':'] [.colon] := scans_singleton rfl fun _ => rfl

theorem scans_quoted (s : String) : Scans (quoted s) [.string (some s)] := by
  intro rest
  obtain ⟨us, hread, hassemble⟩ := stringBody?_quoted s.toList rest
  have htoken : token? '"' (s.toList.flatMap quotedChar ++ '"' :: rest) = some (.string (some s), rest) := by
    change (stringBody? _ >>= _) = _
    rw [hread]
    simp [hassemble]
  have htext : quoted s ++ rest = '"' :: (s.toList.flatMap quotedChar ++ '"' :: rest) := by simp [quoted]
  rw [htext, scan_token rfl htoken]
  rfl

end Scans

/-! ## Whole documents -/

/-- A document that is made of texts, lists and records. -/
inductive Textual : Data → Prop where
  | text (s : String) : Textual (.text s)
  | list {items : List Data} (h : ∀ d ∈ items, Textual d) : Textual (.list items)
  | record {members : List (String × Data)} (h : ∀ m ∈ members, Textual m.2) : Textual (.record members)

mutual

/-- The tokens that a document is written with. -/
def tokens : Data → List Token
  | .null | .moment => [.null]
  | .bool b => [.bool b]
  | .number numeral => [.number numeral]
  | .text s => [.string (some s)]
  | .list [] => [.beginArray, .endArray]
  | .list (d :: ds) => .beginArray :: (tokens d ++ (itemTokens ds ++ [.endArray]))
  | .record [] => [.beginObject, .endObject]
  | .record ((name, d) :: ms) =>
    .beginObject :: .string (some name) :: .colon :: (tokens d ++ (memberTokens ms ++ [.endObject]))

/-- The tokens of the items after the first one. -/
def itemTokens : List Data → List Token
  | [] => []
  | d :: ds => .comma :: (tokens d ++ itemTokens ds)

/-- The tokens of the members after the first one. -/
def memberTokens : List (String × Data) → List Token
  | [] => []
  | (name, d) :: ms => .comma :: .string (some name) :: .colon :: (tokens d ++ memberTokens ms)

end

/-- Line breaks are blank, and names are set apart from values by a colon and blanks. -/
structure Layout.Legible (layout : Layout) : Prop where
  lineBreak : ∀ depth, Scans (layout.lineBreak depth) []
  colon : Scans layout.colon [.colon]

theorem Layout.legible_pretty : Layout.pretty.Legible where
  lineBreak depth := by
    refine scans_spaces (List.all_eq_true.2 fun c hc => ?_)
    rcases List.mem_cons.1 hc with rfl | hc
    · rfl
    · rw [(List.mem_replicate.1 hc).2]
      rfl
  colon := by
    have hblank : Scans [' '] [] := scans_spaces rfl
    exact scans_colon.append hblank

section Write

variable {layout : Layout} (hlayout : layout.Legible)

include hlayout

theorem scans_writeItems {ds : List Data} (h : ∀ d ∈ ds, ∀ depth, Scans (write layout depth d) (tokens d))
    (depth : Nat) : Scans (writeItems layout depth ds) (itemTokens ds) := by
  induction ds with
  | nil =>
    rw [writeItems, itemTokens]
    exact scans_nil
  | cons d ds ih =>
    have hitem := h d List.mem_cons_self depth
    have hitems := ih fun d hd => h d (List.mem_cons_of_mem _ hd)
    rw [writeItems, itemTokens]
    exact ((scans_comma.append (hlayout.lineBreak depth)).append hitem).append hitems

theorem scans_member {d : Data} (name : String) {depth : Nat} (h : Scans (write layout depth d) (tokens d)) :
    Scans (quoted name ++ layout.colon ++ write layout depth d) (.string (some name) :: .colon :: tokens d) :=
  ((scans_quoted name).append hlayout.colon).append h

theorem scans_writeMembers {ms : List (String × Data)}
    (h : ∀ m ∈ ms, ∀ depth, Scans (write layout depth m.2) (tokens m.2)) (depth : Nat) :
    Scans (writeMembers layout depth ms) (memberTokens ms) := by
  induction ms with
  | nil =>
    rw [writeMembers, memberTokens]
    exact scans_nil
  | cons m ms ih =>
    obtain ⟨name, d⟩ := m
    have hmember := scans_member hlayout name (h (name, d) List.mem_cons_self depth)
    have hmembers := ih fun m hm => h m (List.mem_cons_of_mem _ hm)
    have hall := ((scans_comma.append (hlayout.lineBreak depth)).append hmember).append hmembers
    rw [writeMembers, memberTokens]
    simpa only [List.append_assoc, List.cons_append, List.nil_append] using hall

/-- **A written document is read as its tokens.** -/
theorem scans_write {d : Data} (h : Textual d) (depth : Nat) : Scans (write layout depth d) (tokens d) := by
  induction h generalizing depth with
  | text s =>
    rw [write, tokens]
    exact scans_quoted s
  | @list items h ih =>
    cases items with
    | nil =>
      rw [write, tokens]
      exact scans_beginArray.append scans_endArray
    | cons d ds =>
      have hitem := ih d List.mem_cons_self (depth + 1)
      have hitems := scans_writeItems hlayout (fun d hd => ih d (List.mem_cons_of_mem _ hd)) (depth + 1)
      have hopen := scans_beginArray.append (hlayout.lineBreak (depth + 1))
      have hclose := (hlayout.lineBreak depth).append scans_endArray
      have hall := ((hopen.append hitem).append hitems).append hclose
      rw [write, tokens]
      simpa only [List.append_assoc, List.cons_append, List.nil_append] using hall
  | @record members h ih =>
    cases members with
    | nil =>
      rw [write, tokens]
      exact scans_beginObject.append scans_endObject
    | cons m ms =>
      obtain ⟨name, d⟩ := m
      have hmember := scans_member hlayout name (ih (name, d) List.mem_cons_self (depth + 1))
      have hmembers := scans_writeMembers hlayout (fun m hm => ih m (List.mem_cons_of_mem _ hm)) (depth + 1)
      have hopen := scans_beginObject.append (hlayout.lineBreak (depth + 1))
      have hclose := (hlayout.lineBreak depth).append scans_endObject
      have hall := ((hopen.append hmember).append hmembers).append hclose
      rw [write, tokens]
      simpa only [List.append_assoc, List.cons_append, List.nil_append] using hall

end Write

theorem scan_pretty {d : Data} (h : Textual d) : scan (pretty d).toList = some (tokens d) := by
  have hscans := scans_write Layout.legible_pretty h 0 []
  rw [List.append_nil, scan] at hscans
  rw [pretty, String.toList_ofList, hscans, Option.map_some, List.append_nil]

end BlockScript.Json
