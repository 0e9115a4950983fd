import BlockScript.Report

/-!
# The text of a path

A path is shown by its indices, counted from 1, with points between them, and the root by a text of its own. The points
can be found again because no numeral holds one, so cutting the text gives the numerals back (`Path.splitOn_text`); and
the root's text is no numeral. So **the text of a path shows this path and no other**, and a report that names the
failing block names it twice (`Path.text_shows_path`).
-/

namespace BlockScript

open Text (isDigits natural pieces splitOn)

namespace Path

variable {p : Path}

/-- The path that a text shows: the numbers between the points, each less one. -/
def ofText (s : String) : Path :=
  if s = "<root>" then [] else (splitOn '.' s).map fun numeral => natural numeral.toList - 1

theorem text_of_ne_nil (hp : p ≠ []) : p.text = ".".intercalate (p.map fun i => toString (i + 1)) := by
  cases p with
  | nil => exact absurd rfl hp
  | cons i p => rfl

theorem point_not_mem_toString (n : Nat) : '.' ∉ (toString n).toList := by
  intro h
  have hdigit := List.all_eq_true.1 (Text.all_of_isDigits (Text.isDigits_toString n)) '.' h
  cases hdigit

/-- Cutting the text of a path at the points gives the numerals of its indices. -/
theorem splitOn_text (hp : p ≠ []) : splitOn '.' p.text = p.map fun i => toString (i + 1) := by
  have hpieces : pieces '.' p.text.toList = (p.map fun i => toString (i + 1)).map String.toList := by
    rw [text_of_ne_nil hp, String.toList_intercalate]
    refine Text.pieces_intercalate (by simpa using hp) fun part hpart => ?_
    obtain ⟨s, hs, rfl⟩ := List.mem_map.1 hpart
    obtain ⟨i, -, rfl⟩ := List.mem_map.1 hs
    exact point_not_mem_toString (i + 1)
  rw [splitOn, hpieces, List.map_map]
  simp

/-- No block is shown as the root is. -/
theorem text_ne_root (hp : p ≠ []) : p.text ≠ "<root>" := by
  intro h
  have hsplit := splitOn_text hp
  rw [h] at hsplit
  have hroot : splitOn '.' "<root>" = ["<root>"] := by decide +kernel
  rw [hroot] at hsplit
  obtain ⟨i, rest, rfl, hi, -⟩ := List.map_eq_cons_iff.1 hsplit.symm
  have hdigits := Text.isDigits_toString (i + 1)
  rw [hi] at hdigits
  exact absurd hdigits (by decide +kernel)

theorem ofText_text (p : Path) : ofText p.text = p := by
  by_cases hp : p = []
  · rw [hp]
    rfl
  · have hindex : ∀ i ∈ p, natural (toString (i + 1)).toList - 1 = id i := by
      intro i _
      rw [Text.natural_toString]
      rfl
    rw [ofText, if_neg (text_ne_root hp), splitOn_text hp, List.map_map]
    exact (List.map_congr_left hindex).trans (List.map_id p)

/-- **The text of a path shows this path and no other.** Paths with the same text are the same. The text of a block's
path is cut at the points into as many numerals as the path has indices, and these stand for the indices counted from 1.
So the text of the failing block in a report gives the path in the report. -/
theorem text_shows_path :
    (∀ p q : Path, p.text = q.text ↔ p = q) ∧
    (∀ p : Path, p ≠ [] →
      (splitOn '.' p.text).length = p.length ∧
      (∀ numeral ∈ splitOn '.' p.text, isDigits numeral.toList = true) ∧
      (splitOn '.' p.text).map (fun numeral => natural numeral.toList) = p.map fun i => i + 1) ∧
    ∀ f : Failure, ∃ members block, Report.toData (.error f) = .record members ∧
      members.lookup "block" = some (.text block) ∧
        members.lookup "path" = some (.list ((ofText block).map .ofNat)) := by
  refine ⟨fun p q => ⟨fun h => ?_, congrArg text⟩, fun p hp => ?_, fun f => ?_⟩
  · rw [← ofText_text p, h, ofText_text]
  · rw [splitOn_text hp]
    refine ⟨List.length_map _, fun numeral hnumeral => ?_, ?_⟩
    · obtain ⟨i, -, rfl⟩ := List.mem_map.1 hnumeral
      exact Text.isDigits_toString (i + 1)
    · rw [List.map_map]
      exact List.map_congr_left fun i _ => Text.natural_toString (i + 1)
  · refine ⟨_, f.path.text, rfl, rfl, ?_⟩
    rw [ofText_text]
    rfl

/-- Numerals of several widths, the first of which is the largest number of a 64-bit word. -/
theorem text_shows_path_farOut :
    (splitOn '.' (text [18446744073709551614, 9, 0])).length = 3 ∧
      (splitOn '.' (text [18446744073709551614, 9, 0])).map (fun numeral => natural numeral.toList) =
        [18446744073709551615, 10, 1] := by
  obtain ⟨hlength, -, hnumerals⟩ := text_shows_path.2.1 [18446744073709551614, 9, 0] (List.cons_ne_nil _ _)
  exact ⟨hlength, hnumerals⟩

end Path

end BlockScript
