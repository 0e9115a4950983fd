/-!
# Blank characters and the edges of a text

A blank is a character with the Unicode property `White_Space`. Blanks mean nothing inside an expression and nothing
at the edges of a name, so both are cut by the functions of this module.
-/

namespace BlockScript.Text

/-- The blank characters as closed ranges of code points, in increasing order: twenty-five characters in all. -/
def blankRanges : List (Nat × Nat) :=
  [(0x09, 0x0D), (0x20, 0x20), (0x85, 0x85), (0xA0, 0xA0), (0x1680, 0x1680), (0x2000, 0x200A), (0x2028, 0x2029),
    (0x202F, 0x202F), (0x205F, 0x205F), (0x3000, 0x3000)]

/-- Whether a character is blank. -/
def isBlank (c : Char) : Bool :=
  blankRanges.any fun r => r.1 ≤ c.toNat && c.toNat ≤ r.2

/-- The characters that are not blank. -/
def blankFree (cs : List Char) : List Char := cs.filter fun c => !isBlank c

theorem blankFree_eq_nil_iff {cs : List Char} : blankFree cs = [] ↔ ∀ c ∈ cs, isBlank c = true := by
  simp [blankFree]

theorem blankFree_ne_nil_iff {cs : List Char} : blankFree cs ≠ [] ↔ ∃ c ∈ cs, isBlank c = false := by
  simp [blankFree]

/-- Nothing is dropped from characters of which none is blank. -/
theorem blankFree_eq_self {cs : List Char} (h : ∀ c ∈ cs, isBlank c = false) : blankFree cs = cs :=
  List.filter_eq_self.2 fun c hc => by rw [h c hc]; rfl

/-- The characters from the first one that is not blank. -/
def trimStart (cs : List Char) : List Char := cs.dropWhile isBlank

/-- The characters up to the last one that is not blank. -/
def trimEnd (cs : List Char) : List Char := (cs.reverse.dropWhile isBlank).reverse

/-- The text without the blanks at its two ends. -/
def trim (s : String) : String := .ofList (trimEnd (trimStart s.toList))

/-- Whether nothing is left of a text once its ends are trimmed. -/
def isBlankText (s : String) : Bool := (trim s).isEmpty

theorem isBlankText_iff {s : String} : isBlankText s = true ↔ trim s = "" := by
  rw [isBlankText, String.isEmpty_iff]

theorem isBlankText_eq_false {s : String} (h : trim s ≠ "") : isBlankText s = false :=
  Bool.eq_false_iff.2 fun hblank => h (isBlankText_iff.1 hblank)

end BlockScript.Text
