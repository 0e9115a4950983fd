/-!
# Cutting a text at separators

`pieces` cuts at every separator and `cutAt` at the first one only. Neither keeps the separator.
-/

namespace BlockScript.Text

/-- The stretches between the separators, empty ones included; a text without a separator is one stretch. -/
def pieces (sep : Char) : List Char → List (List Char)
  | [] => [[]]
  | c :: cs =>
    if c = sep then [] :: pieces sep cs
    else match pieces sep cs with
      | [] => [[c]]
      | p :: ps => (c :: p) :: ps

theorem pieces_ne_nil (sep : Char) (cs : List Char) : pieces sep cs ≠ [] := by
  cases cs with
  | nil => simp [pieces]
  | cons c cs =>
    rw [pieces]
    split
    · simp
    · split <;> simp

/-- Putting the separators back between the stretches gives the whole again. -/
theorem intercalate_pieces (sep : Char) (cs : List Char) : [sep].intercalate (pieces sep cs) = cs := by
  induction cs with
  | nil => rfl
  | cons c cs ih =>
    rw [pieces]
    cases h : pieces sep cs with
    | nil => exact absurd h (pieces_ne_nil sep cs)
    | cons p ps =>
      rw [h] at ih
      by_cases hc : c = sep
      · rw [if_pos hc, hc]
        simpa [List.intercalate] using ih
      · rw [if_neg hc]
        cases ps with
        | nil => simpa [List.intercalate] using ih
        | cons q ps => simpa [List.intercalate] using ih

/-- No stretch holds a separator. -/
theorem not_mem_of_mem_pieces {sep : Char} {cs p : List Char} (h : p ∈ pieces sep cs) : sep ∉ p := by
  induction cs generalizing p with
  | nil => simp_all [pieces]
  | cons c cs ih =>
    rw [pieces] at h
    split at h
    · rcases List.mem_cons.1 h with rfl | h
      · simp
      · exact ih h
    · next hc =>
      split at h
      · simp_all [Ne.symm hc]
      · next q ps hq =>
        rw [hq] at ih
        rcases List.mem_cons.1 h with rfl | h
        · simp [Ne.symm hc, ih]
        · exact ih (List.mem_cons_of_mem q h)

theorem pieces_of_not_mem {sep : Char} {cs : List Char} (h : sep ∉ cs) : pieces sep cs = [cs] := by
  induction cs with
  | nil => rfl
  | cons c cs ih =>
    rw [List.mem_cons, not_or] at h
    rw [pieces, if_neg (Ne.symm h.1), ih h.2]

theorem pieces_append (sep : Char) (xs ys : List Char) :
    pieces sep (xs ++ sep :: ys) = pieces sep xs ++ pieces sep ys := by
  induction xs with
  | nil => exact if_pos rfl
  | cons x xs ih =>
    rw [List.cons_append, pieces, pieces, ih]
    by_cases hx : x = sep
    · rw [if_pos hx, if_pos hx, List.cons_append]
    · rw [if_neg hx, if_neg hx]
      cases hp : pieces sep xs with
      | nil => exact absurd hp (pieces_ne_nil sep xs)
      | cons p ps => rfl

/-- Cutting at the separators undoes putting them between stretches that hold none. -/
theorem pieces_intercalate {sep : Char} {parts : List (List Char)} (hne : parts ≠ []) (h : ∀ part ∈ parts, sep ∉ part) :
    pieces sep ([sep].intercalate parts) = parts := by
  induction parts with
  | nil => exact absurd rfl hne
  | cons part parts ih =>
    rw [List.forall_mem_cons] at h
    cases parts with
    | nil => rw [List.intercalate_singleton, pieces_of_not_mem h.1]
    | cons next parts =>
      have hjoined : [sep].intercalate (part :: next :: parts) = part ++ sep :: [sep].intercalate (next :: parts) := by
        simp [List.intercalate_cons_cons]
      rw [hjoined, pieces_append, pieces_of_not_mem h.1, ih (List.cons_ne_nil _ _) h.2]
      rfl

/-- `pieces` on texts. -/
def splitOn (sep : Char) (s : String) : List String := (pieces sep s.toList).map .ofList

/-- What stands before and after the first character that satisfies `stop`, if there is one. -/
def cutAt (stop : Char → Bool) : List Char → Option (List Char × List Char)
  | [] => none
  | c :: cs => if stop c then some ([], cs) else (cutAt stop cs).map fun (before, after) => (c :: before, after)

/-- The cut is at the first character that satisfies `stop`, which is left out. -/
theorem cutAt_eq_some_iff {stop : Char → Bool} {cs before after : List Char} :
    cutAt stop cs = some (before, after) ↔
      ∃ c, stop c = true ∧ (∀ b ∈ before, stop b = false) ∧ cs = before ++ c :: after := by
  induction cs generalizing before with
  | nil => simp [cutAt]
  | cons d cs ih =>
    rw [cutAt]
    cases before with
    | nil =>
      by_cases hd : stop d = true
      · simp only [hd, if_true, Option.some.injEq, Prod.mk.injEq, true_and, List.nil_append, List.cons.injEq]
        exact ⟨fun h => ⟨d, hd, by simp, rfl, h⟩, fun ⟨_, _, _, _, h⟩ => h⟩
      · simp only [hd, Bool.false_eq_true, if_false, Option.map_eq_some_iff, List.nil_append, List.cons.injEq]
        constructor
        · rintro ⟨_, _, h⟩
          simp at h
        · rintro ⟨c, hc, -, rfl, -⟩
          exact absurd hc hd
    | cons b before =>
      by_cases hd : stop d = true
      · simp only [hd, if_true, Option.some.injEq, Prod.mk.injEq, reduceCtorEq, false_and, false_iff]
        rintro ⟨c, -, hb, h⟩
        have := hb b (by simp)
        simp_all
      · simp only [hd, Bool.false_eq_true, if_false, Option.map_eq_some_iff, Prod.exists, Prod.mk.injEq,
          List.cons.injEq, List.cons_append, List.mem_cons, forall_eq_or_imp]
        constructor
        · rintro ⟨x, y, hxy, ⟨rfl, rfl⟩, rfl⟩
          obtain ⟨c, hc, hb, rfl⟩ := ih.1 hxy
          exact ⟨c, hc, ⟨by simpa using hd, hb⟩, rfl, rfl⟩
        · rintro ⟨c, hc, ⟨-, hb⟩, rfl, rfl⟩
          exact ⟨before, after, ih.2 ⟨c, hc, hb, rfl⟩, ⟨rfl, rfl⟩, rfl⟩

/-- `cutAt` on texts. -/
def splitOnce (stop : Char → Bool) (s : String) : Option (String × String) :=
  (cutAt stop s.toList).map fun (before, after) => (.ofList before, .ofList after)

end BlockScript.Text
