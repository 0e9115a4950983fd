import BlockScript.Proofs.MaximalMunch
import BlockScript.Proofs.TokenRanges
import Mathlib.Computability.Language
import Mathlib.Tactic.TFAE

/-!
# Names in declarations and names in expressions

A declaration checks a name as it stands (`Lexeme.isName`), while an expression loses its blanks before it is cut into
tokens. Both go by the language `[a-zA-Z_][a-zA-Z0-9_]*`, which is `Lexeme.namePattern`: **a text passes the check
exactly if it is in the language, and exactly if reading it gives one name that is the whole text**, and every name that
is read from an expression passes the check (`Token.scan_reads_names`).

The two ways to read a text meet because no character of a name is blank (`Lexeme.isBlank_eq_false_of_continuesName`).
So nothing is dropped from a name, and the one token that lies in it covers all of it (`Token.Laid.span_of_blankFree`).
-/

namespace BlockScript

open Computability
open Text (isBlank blankFree byteSize)

/-! ## Classes of characters -/

namespace Text

variable {p : Char → Bool} {cs : List Char}

/-- The texts of one character that satisfies `p`. -/
def oneOf (p : Char → Bool) : Language Char := {cs | ∃ c, p c = true ∧ cs = [c]}

/-- The texts of one character from `lo` to `hi`. -/
def range (lo hi : Char) : Language Char := oneOf fun c => lo ≤ c && c ≤ hi

theorem oneOf_add (p q : Char → Bool) : oneOf p + oneOf q = oneOf fun c => p c || q c := by
  ext cs
  rw [Language.mem_add]
  constructor
  · rintro (⟨c, hc, rfl⟩ | ⟨c, hc, rfl⟩)
    · exact ⟨c, Bool.or_eq_true_iff.2 (.inl hc), rfl⟩
    · exact ⟨c, Bool.or_eq_true_iff.2 (.inr hc), rfl⟩
  · rintro ⟨c, hc, rfl⟩
    rcases Bool.or_eq_true_iff.1 hc with hc | hc
    · exact .inl ⟨c, hc, rfl⟩
    · exact .inr ⟨c, hc, rfl⟩

theorem mem_oneOf_mul {l : Language Char} : cs ∈ oneOf p * l ↔ ∃ c later, p c = true ∧ later ∈ l ∧ cs = c :: later := by
  rw [Language.mem_mul]
  constructor
  · rintro ⟨_, ⟨c, hc, rfl⟩, later, hlater, rfl⟩
    exact ⟨c, later, hc, hlater, rfl⟩
  · rintro ⟨c, later, hc, hlater, rfl⟩
    exact ⟨[c], ⟨c, hc, rfl⟩, later, hlater, rfl⟩

/-- A repetition of characters is a text made of such characters. -/
theorem mem_kstar_oneOf : cs ∈ (oneOf p)∗ ↔ cs.all p = true := by
  rw [Language.mem_kstar, List.all_eq_true]
  constructor
  · rintro ⟨words, rfl, hwords⟩ c hc
    obtain ⟨word, hword, hc⟩ := List.mem_flatten.1 hc
    obtain ⟨d, hd, rfl⟩ := hwords word hword
    rwa [List.mem_singleton.1 hc]
  · intro h
    refine ⟨cs.map fun c => [c], (List.flatMap_singleton' cs).symm, fun word hword => ?_⟩
    obtain ⟨c, hc, rfl⟩ := List.mem_map.1 hword
    exact ⟨c, h c hc, rfl⟩

end Text

/-! ## The language of names -/

namespace Lexeme

open Text (oneOf range)

variable {cs : List Char}

/-- The language `[a-zA-Z_][a-zA-Z0-9_]*`. -/
def namePattern : Language Char :=
  (range 'a' 'z' + range 'A' 'Z' + oneOf (· == '_')) *
    (range 'a' 'z' + range 'A' 'Z' + range '0' '9' + oneOf (· == '_'))∗

theorem oneOf_startsName : range 'a' 'z' + range 'A' 'Z' + oneOf (· == '_') = oneOf startsName := by
  rw [range, range, Text.oneOf_add, Text.oneOf_add]
  congr 1
  funext c
  rw [startsName, isAlpha_eq]

theorem oneOf_continuesName :
    range 'a' 'z' + range 'A' 'Z' + range '0' '9' + oneOf (· == '_') = oneOf continuesName := by
  rw [range, range, range, Text.oneOf_add, Text.oneOf_add, Text.oneOf_add]
  congr 1
  funext c
  rw [continuesName_eq]

theorem mem_namePattern : cs ∈ namePattern ↔ ∃ x : Identifier, cs = x.text := by
  rw [namePattern, oneOf_startsName, oneOf_continuesName, Text.mem_oneOf_mul]
  simp only [Text.mem_kstar_oneOf]
  constructor
  · rintro ⟨c, later, hc, hlater, rfl⟩
    exact ⟨⟨c, later, hc, hlater⟩, rfl⟩
  · rintro ⟨x, rfl⟩
    exact ⟨x.first, x.later, x.startsName_first, x.all_later, rfl⟩

/-! ## Names hold no blanks -/

/-- Nothing is dropped from a name. -/
theorem isBlank_eq_false_of_isName {s : String} (h : isName s = true) : ∀ c ∈ s.toList, isBlank c = false := by
  obtain ⟨x, hx⟩ := isName_iff.1 h
  intro c hc
  rw [hx] at hc
  rcases List.mem_cons.1 hc with rfl | hc
  · exact isBlank_eq_false_of_continuesName (continuesName_of_startsName x.startsName_first)
  · exact isBlank_eq_false_of_continuesName (List.all_eq_true.1 x.all_later c hc)

/-- Whatever is cut off matches the pattern of its kind. -/
theorem Munches.matches_of_mem {l : Lexeme} {ls : List Lexeme} {left : List Char} (h : Munches cs ls left)
    (hl : l ∈ ls) : Matches l.kind l.text := by
  induction h with
  | stop => cases hl
  | cons hhead _ ih =>
    rcases List.mem_cons.1 hl with rfl | hl
    · exact hhead.fits
    · exact ih hl

theorem Matches.exists_identifier (h : Matches .name cs) : ∃ x : Identifier, cs = x.text := by
  cases h with
  | name x => exact ⟨x, rfl⟩

end Lexeme

/-! ## Names among tokens -/

namespace Token

variable {source : String} {t : Token} {ts : List Token}

/-- A name that is read from an expression passes the check of a declaration. -/
theorem isName_of_scan (h : scan source = .ok ts) (ht : t ∈ ts) (hkind : t.kind = .name) :
    Lexeme.isName t.text = true := by
  have hne : blankFree source.toList ≠ [] := by
    intro hnil
    rw [scan_of_blankFree_nil hnil] at h
    cases h
  rcases scan_cases hne with ⟨ts', hscan, hmunches⟩ | ⟨ls, c, rest, span, hscan, -⟩
  · cases hscan.symm.trans h
    have hfits := hmunches.matches_of_mem (List.mem_map_of_mem ht)
    rw [lexeme, hkind] at hfits
    exact Lexeme.isName_iff.2 hfits.exists_identifier
  · cases hscan.symm.trans h

/-- The only token of a text without blanks covers all of it. -/
theorem Laid.span_of_blankFree {cs : List Char} (h : Laid 0 cs [t]) (hcs : ∀ c ∈ cs, isBlank c = false) :
    t.span = ⟨0, byteSize cs⟩ := by
  have hnil : ∀ part : List Char, part ⊆ cs → part.all isBlank = true → part = [] := by
    intro part hpart hblank
    refine List.eq_nil_iff_forall_not_mem.2 fun c hc => ?_
    have hc' := List.all_eq_true.1 hblank c hc
    rw [hcs c (hpart hc)] at hc'
    cases hc'
  cases h with
  | @cons _ gap piece rest _ _ hgap _ hspan hlater =>
    cases hlater with
    | nil hrest =>
      obtain rfl := hnil gap (by simp) hgap
      obtain rfl := hnil rest (by simp) hrest
      rw [hspan]
      simp

/-- A name is read as one token, which is all of the text. -/
theorem scan_of_isName {s : String} (h : Lexeme.isName s = true) :
    scan s = .ok [⟨.name, s, ⟨0, s.utf8ByteSize⟩⟩] := by
  have hblank := Lexeme.isBlank_eq_false_of_isName h
  have hsplit : Lexeme.split (blankFree s.toList) = ([⟨.name, s.toList⟩], []) := by
    rw [Text.blankFree_eq_self hblank]
    exact of_decide_eq_true h
  obtain ⟨span, hscan⟩ := scan_of_split_singleton hsplit
  have hspan : span = ⟨0, byteSize s.toList⟩ := (laid_of_scan hscan).span_of_blankFree hblank
  rw [hscan, hspan, byteSize, String.ofList_toList]

/-- **Declarations and expressions have the same names.** A text passes the check of a declaration exactly if it is in
the language `[a-zA-Z_][a-zA-Z0-9_]*`, and exactly if it is read as a single token, a name that is the whole text. Every
name that is read from an expression passes the check. -/
theorem scan_reads_names (s : String) :
    List.TFAE [Lexeme.isName s = true, s.toList ∈ Lexeme.namePattern,
      scan s = .ok [⟨.name, s, ⟨0, s.utf8ByteSize⟩⟩]] ∧
    ∀ ts, scan s = .ok ts → ∀ t ∈ ts, t.kind = .name → Lexeme.isName t.text = true := by
  constructor
  · tfae_have 1 ↔ 2 := by rw [Lexeme.mem_namePattern, Lexeme.isName_iff]
    tfae_have 1 → 3 := scan_of_isName
    tfae_have 3 → 1 := fun h => isName_of_scan h List.mem_cons_self rfl
    tfae_finish
  · intro ts h t ht hkind
    exact isName_of_scan h ht hkind

/-- A blank inside a name is no part of it: an expression may hold one, a declaration may not. -/
theorem scan_reads_names_spread :
    "_tmp1".toList ∈ Lexeme.namePattern ∧ "a b".toList ∉ Lexeme.namePattern ∧ Lexeme.isName "ab" = true := by
  have hname : Lexeme.isName "_tmp1" = true := by decide +kernel
  have hspread : scan "2*a b" = .ok [⟨.number, "2", ⟨0, 1⟩⟩, ⟨.arith .mul, "*", ⟨1, 2⟩⟩, ⟨.name, "ab", ⟨2, 5⟩⟩] := by
    decide +kernel
  refine ⟨((scan_reads_names "_tmp1").1.out 0 1).1 hname, fun h => ?_, ?_⟩
  · have hrefused : Lexeme.isName "a b" = false := by decide +kernel
    exact ne_true_of_eq_false hrefused (((scan_reads_names "a b").1.out 1 0).1 h)
  · exact (scan_reads_names "2*a b").2 _ hspread ⟨.name, "ab", ⟨2, 5⟩⟩ (by simp) rfl

end Token

end BlockScript
