import BlockScript.Proofs.Composition
import BlockScript.Session.Basic
import Mathlib.Data.List.DropRight

/-!
# The line that shows a block, read as a line

`Block.text` writes a block as a line, and `Command.read?` makes a command of a line. The two do not undo each other:
the reader trims the line and each of its parts, and it gives a declaration all its names in a single entry. What they
keep is the effect. A block that is shown and read back does to every environment what the block itself does, and fails
where it fails with the same error.

Trimming is handled through padding: `exists_padding` says that a text is its trimmed form between blanks, and
`trim_padded` that blanks around a text do not count. The names of a declaration are handled through `namesIn`, the
names in one stretch of characters: a comma separates them (`namesIn_append_comma`) and padding adds none
(`namesIn_padded`).
-/

namespace BlockScript

open Text (trim trimStart trimEnd isBlank pieces splitOn cutAt splitOnce)

/-! ## Blanks at the edges -/

namespace Text

/-- Whether all characters are blank. -/
def Blanks (cs : List Char) : Prop := ∀ c ∈ cs, isBlank c = true

theorem blanks_nil : Blanks [] := List.forall_mem_nil _

theorem blanks_singleton {c : Char} (h : isBlank c = true) : Blanks [c] := List.forall_mem_singleton.2 h

theorem exists_of_not_blanks {cs : List Char} (h : ¬ Blanks cs) : ∃ c ∈ cs, isBlank c = false := by
  simpa [Blanks] using h

theorem trimEnd_eq_rdropWhile (cs : List Char) : trimEnd cs = cs.rdropWhile isBlank := rfl

theorem trimStart_append {bs : List Char} (hbs : Blanks bs) (cs : List Char) : trimStart (bs ++ cs) = trimStart cs :=
  List.dropWhile_append_of_pos hbs

theorem trimStart_of_blanks {bs : List Char} (hbs : Blanks bs) : trimStart bs = [] := List.dropWhile_eq_nil_iff.2 hbs

theorem trimEnd_append {bs : List Char} (hbs : Blanks bs) (cs : List Char) : trimEnd (cs ++ bs) = trimEnd cs := by
  rw [trimEnd, trimEnd, List.reverse_append,
    List.dropWhile_append_of_pos fun c hc => hbs c (List.mem_reverse.1 hc)]

/-- What stands up to a character that is not blank stays. -/
theorem trimEnd_append_cons {c : Char} (hc : isBlank c = false) (as bs : List Char) :
    trimEnd (as ++ c :: bs) = as ++ c :: trimEnd bs := by
  induction bs using List.reverseRecOn with
  | nil => exact List.rdropWhile_concat_neg isBlank as c (ne_true_of_eq_false hc)
  | append_singleton bs d ih =>
    rw [← List.cons_append, ← List.append_assoc]
    cases hd : isBlank d with
    | true =>
      rw [trimEnd_append (blanks_singleton hd), trimEnd_append (blanks_singleton hd), ih]
    | false =>
      have hd := ne_true_of_eq_false hd
      rw [trimEnd_eq_rdropWhile, trimEnd_eq_rdropWhile, List.rdropWhile_concat_neg _ _ _ hd,
        List.rdropWhile_concat_neg _ _ _ hd, List.append_assoc, List.cons_append]

/-- A blank in front goes with the rest if the rest goes. -/
theorem trimEnd_cons_of_isBlank {c : Char} (hc : isBlank c = true) (cs : List Char) :
    trimEnd (c :: cs) = [] ∧ trimEnd cs = [] ∨ trimEnd (c :: cs) = c :: trimEnd cs := by
  by_cases hcs : Blanks cs
  · refine .inl ⟨List.rdropWhile_eq_nil_iff.2 ?_, List.rdropWhile_eq_nil_iff.2 hcs⟩
    exact List.forall_mem_cons.2 ⟨hc, hcs⟩
  · obtain ⟨d, hd, hblank⟩ := exists_of_not_blanks hcs
    obtain ⟨as, bs, rfl⟩ := List.append_of_mem hd
    rw [← List.cons_append, trimEnd_append_cons hblank, trimEnd_append_cons hblank, List.cons_append]
    exact .inr rfl

/-- Blanks around a text do not count. -/
theorem trim_padded {l r : List Char} (hl : Blanks l) (hr : Blanks r) (cs : List Char) :
    trim (.ofList (l ++ cs ++ r)) = trim (.ofList cs) := by
  rw [trim, trim, String.toList_ofList, String.toList_ofList, List.append_assoc, trimStart_append hl]
  congr 1
  by_cases hcs : Blanks cs
  · rw [trimStart_append hcs, trimStart_of_blanks hr, trimStart_of_blanks hcs]
  · obtain ⟨d, hd, hblank⟩ := exists_of_not_blanks hcs
    have hne : ¬ (cs.dropWhile isBlank).isEmpty = true := by
      rw [List.isEmpty_iff, List.dropWhile_eq_nil_iff]
      exact fun h => ne_true_of_eq_false hblank (h d hd)
    rw [trimStart, List.dropWhile_append, if_neg hne, trimEnd_append hr, trimStart]

/-- A text is its trimmed form between blanks. -/
theorem exists_padding (s : String) : ∃ l r, Blanks l ∧ Blanks r ∧ s.toList = l ++ (trim s).toList ++ r := by
  refine ⟨s.toList.takeWhile isBlank, (trimStart s.toList).rtakeWhile isBlank, fun c hc => List.mem_takeWhile_imp hc,
    fun c hc => List.mem_rtakeWhile_imp hc, ?_⟩
  rw [trim, String.toList_ofList, List.append_assoc, trimEnd_eq_rdropWhile, List.rdropWhile_append_rtakeWhile,
    trimStart, List.takeWhile_append_dropWhile]

theorem trim_trim (s : String) : trim (trim s) = trim s := by
  obtain ⟨l, r, hl, hr, hs⟩ := exists_padding s
  have h := trim_padded hl hr (trim s).toList
  rw [← hs, String.ofList_toList, String.ofList_toList] at h
  exact h.symm

theorem trim_trimEnd (cs : List Char) : trim (.ofList (trimEnd cs)) = trim (.ofList cs) := by
  have h := trim_padded blanks_nil (fun c hc => List.mem_rtakeWhile_imp hc) (trimEnd cs)
    (r := cs.rtakeWhile isBlank)
  rw [List.nil_append, trimEnd_eq_rdropWhile, List.rdropWhile_append_rtakeWhile] at h
  exact h.symm

/-! ## Cutting -/

theorem splitOnce_append {stop : Char → Bool} {c : Char} {before : List Char} (hc : stop c = true)
    (hbefore : ∀ b ∈ before, stop b = false) (after : List Char) :
    splitOnce stop (.ofList (before ++ c :: after)) = some (.ofList before, .ofList after) := by
  rw [splitOnce, String.toList_ofList, cutAt_eq_some_iff.2 ⟨c, hc, hbefore, rfl⟩, Option.map_some]

theorem splitOnce_eq_none {stop : Char → Bool} {s : String} (h : ∀ c ∈ s.toList, stop c = false) :
    splitOnce stop s = none := by
  rw [splitOnce, Option.map_eq_none_iff]
  refine Option.eq_none_iff_forall_ne_some.2 fun ⟨before, after⟩ hcut => ?_
  obtain ⟨c, hc, -, hs⟩ := cutAt_eq_some_iff.1 hcut
  exact ne_true_of_eq_false (h c (hs ▸ List.mem_append_right before List.mem_cons_self)) hc

end Text

/-! ## The names of a declaration -/

/-- The names in a stretch of characters with commas between them. -/
def namesIn (cs : List Char) : List String :=
  ((pieces ',' cs).map fun p => trim (.ofList p)).filter fun name => !name.isEmpty

theorem declaredNames_eq_flatMap (entries : List String) :
    declaredNames entries = entries.flatMap fun entry => namesIn entry.toList := by
  rw [declaredNames, List.map_flatMap, List.filter_flatMap]
  congr 1
  funext entry
  rw [splitOn, List.map_map, namesIn]
  rfl

theorem namesIn_append_comma (xs ys : List Char) : namesIn (xs ++ ',' :: ys) = namesIn xs ++ namesIn ys := by
  rw [namesIn, Text.pieces_append, List.map_append, List.filter_append, namesIn, namesIn]

theorem not_mem_of_blanks {bs : List Char} (hbs : Text.Blanks bs) : ',' ∉ bs :=
  fun h => absurd (hbs ',' h) (by decide)

/-- Blanks around the characters add no name and change none. -/
theorem namesIn_padded {l r : List Char} (hl : Text.Blanks l) (hr : Text.Blanks r) (cs : List Char) :
    namesIn (l ++ cs ++ r) = namesIn cs := by
  induction hn : cs.length using Nat.strong_induction_on generalizing l r cs with
  | _ n ih =>
    by_cases hcomma : ',' ∈ cs
    · -- The padding on the left belongs to what stands before the comma, that on the right to what stands after it.
      obtain ⟨xs, ys, rfl⟩ := List.append_of_mem hcomma
      rw [List.length_append, List.length_cons] at hn
      have hcut : l ++ (xs ++ ',' :: ys) ++ r = (l ++ xs ++ []) ++ ',' :: ([] ++ ys ++ r) := by simp
      rw [hcut, namesIn_append_comma, namesIn_append_comma, ih xs.length (by omega) hl Text.blanks_nil xs rfl,
        ih ys.length (by omega) Text.blanks_nil hr ys rfl]
    · have hpadded : ',' ∉ l ++ cs ++ r := by
        simp [not_mem_of_blanks hl, not_mem_of_blanks hr, hcomma]
      rw [namesIn, namesIn, Text.pieces_of_not_mem hpadded, Text.pieces_of_not_mem hcomma, List.map_singleton,
        List.map_singleton, Text.trim_padded hl hr]

theorem namesIn_trim (s : String) : namesIn (trim s).toList = namesIn s.toList := by
  obtain ⟨l, r, hl, hr, hs⟩ := Text.exists_padding s
  rw [hs, namesIn_padded hl hr]

/-- A line of entries holds the names of all of them. -/
theorem namesIn_intercalate (entries : List String) :
    namesIn (", ".intercalate entries).toList = declaredNames entries := by
  rw [declaredNames_eq_flatMap]
  induction entries with
  | nil => decide +kernel
  | cons entry entries ih =>
    cases entries with
    | nil => simp
    | cons next entries =>
      have hspace : Text.Blanks [' '] := Text.blanks_singleton (by decide)
      have hline : (", ".intercalate (entry :: next :: entries)).toList =
          entry.toList ++ ',' :: ([' '] ++ (", ".intercalate (next :: entries)).toList ++ []) := by
        simp [String.intercalate_cons_cons]
      rw [hline, namesIn_append_comma, namesIn_padded hspace Text.blanks_nil, ih]
      rfl

/-- Entries that are joined and trimmed declare what they declare one by one. -/
theorem declaredNames_joined (entries : List String) :
    declaredNames [trim (", ".intercalate entries)] = declaredNames entries := by
  rw [← namesIn_intercalate entries, ← namesIn_trim, declaredNames_eq_flatMap, List.flatMap_singleton]

/-! ## Reading a shown line -/

namespace Command

/-- What the reader finds out about a line before it looks at the word: the line is not blank and no colon command, and
it is cut into the word and a rest, which is empty for a line of one word. -/
structure StartsWith (word rest line : String) : Prop where
  not_isEmpty : (trim line).isEmpty = false
  not_colon : (trim line).toList.head? ≠ some ':'
  split : (splitOnce isBlank (trim line)).getD (trim line, "") = (word, rest)

/-- A blank behind the word ends it, whether or not the line still has the blank once it is trimmed. -/
theorem startsWith_append (word : String) {c : Char} {cs : List Char} (hword : word.toList = c :: cs) (hcolon : c ≠ ':')
    (hall : word.toList.all (!isBlank ·) = true) (s : String) :
    StartsWith word (.ofList (trimEnd s.toList)) (word ++ " " ++ s) := by
  have hspace : isBlank ' ' = true := by decide
  have hblank : ∀ d ∈ word.toList, isBlank d = false := fun d hd => by simpa using List.all_eq_true.1 hall d hd
  have htrim : trim (word ++ " " ++ s) = .ofList (word.toList ++ trimEnd (' ' :: s.toList)) := by
    have hline : (word ++ " " ++ s).toList = word.toList ++ ' ' :: s.toList := by simp
    have hstart : trimStart (word.toList ++ ' ' :: s.toList) = word.toList ++ ' ' :: s.toList := by
      rw [hword]
      exact List.dropWhile_cons_of_neg (ne_true_of_eq_false (hblank c (hword ▸ List.mem_cons_self)))
    obtain ⟨as, a, ha⟩ : ∃ as a, word.toList = as ++ [a] :=
      (List.eq_nil_or_concat' word.toList).resolve_left (hword ▸ List.cons_ne_nil c cs)
    rw [trim, hline, hstart, ha, List.append_assoc, List.singleton_append,
      Text.trimEnd_append_cons (hblank a (by simp [ha])), List.append_assoc, List.singleton_append]
  have hhead : (trim (word ++ " " ++ s)).toList.head? = some c := by
    rw [htrim, String.toList_ofList, hword, List.cons_append, List.head?_cons]
  refine ⟨?_, ?_, ?_⟩
  · rw [← Bool.not_eq_true, String.isEmpty_iff]
    intro hempty
    rw [hempty] at hhead
    cases hhead
  · rw [hhead]
    exact fun h => hcolon (Option.some.inj h)
  · obtain ⟨hline, hs⟩ | hline := Text.trimEnd_cons_of_isBlank hspace s.toList
    · rw [htrim, hline, hs, List.append_nil, String.ofList_toList, Text.splitOnce_eq_none hblank, Option.getD_none]
    · rw [htrim, hline, Text.splitOnce_append hspace hblank, String.ofList_toList, Option.getD_some]

section

variable {rest line : String}

theorem read?_declare (h : StartsWith "declare" rest line) :
    read? line = .ok (some (block (.declare [trim rest]))) := by
  simp only [read?, h.not_isEmpty, h.not_colon, h.split, Bool.false_eq_true, if_false]

theorem read?_set {target literal : String} (h : StartsWith "set" rest line)
    (hsides : sides "set" rest = .ok (target, literal)) : read? line = .ok (some (block (.assign target literal))) := by
  simp only [read?, h.not_isEmpty, h.not_colon, h.split, hsides, Bool.false_eq_true, if_false]
  rfl

theorem read?_calc {target expression : String} (h : StartsWith "calc" rest line)
    (hsides : sides "calc" rest = .ok (target, expression)) :
    read? line = .ok (some (block (.calculate target expression))) := by
  simp only [read?, h.not_isEmpty, h.not_colon, h.split, hsides, Bool.false_eq_true, if_false]
  rfl

end

/-- The equals sign between the two sides is the first one if the left side has none, and no trimming reaches it. -/
theorem sides_shown (keyword : String) {lhs : String} (hlhs : '=' ∉ lhs.toList) (rhs : String) :
    sides keyword (.ofList (trimEnd (lhs ++ " = " ++ rhs).toList)) = .ok (trim lhs, trim rhs) := by
  have hspace : Text.Blanks [' '] := Text.blanks_singleton (by decide)
  have hshown : trimEnd (lhs ++ " = " ++ rhs).toList =
      (lhs.toList ++ [' ']) ++ '=' :: trimEnd ([' '] ++ rhs.toList) := by
    rw [← Text.trimEnd_append_cons (by decide)]
    simp
  have hfirst : ∀ c ∈ lhs.toList ++ [' '], (c == '=') = false := by
    intro c hc
    rw [beq_eq_false_iff_ne]
    rintro rfl
    simp [hlhs] at hc
  have hleft := Text.trim_padded Text.blanks_nil hspace lhs.toList
  have hright := Text.trim_padded hspace Text.blanks_nil rhs.toList
  rw [List.nil_append, String.ofList_toList] at hleft
  rw [List.append_nil, String.ofList_toList] at hright
  have hcut : splitOnce (· == '=') (.ofList (lhs.toList ++ [' '] ++ '=' :: trimEnd ([' '] ++ rhs.toList))) =
      some (.ofList (lhs.toList ++ [' ']), .ofList (trimEnd ([' '] ++ rhs.toList))) :=
    Text.splitOnce_append rfl hfirst _
  rw [sides, hshown, hcut]
  simp only [hleft, Text.trim_trimEnd, hright]

theorem read?_text_declare (names : List String) :
    read? (Block.declare names).text = .ok (some (block (.declare [trim (", ".intercalate names)]))) := by
  have hline := startsWith_append "declare" rfl (by decide) rfl (", ".intercalate names)
  have htext : (Block.declare names).text = "declare" ++ " " ++ ", ".intercalate names := rfl
  rw [htext, read?_declare hline, Text.trim_trimEnd, String.ofList_toList]

theorem read?_text_assign {target : String} (htarget : '=' ∉ target.toList) (literal : String) :
    read? (Block.assign target literal).text = .ok (some (block (.assign (trim target) (trim literal)))) := by
  have htext : (Block.assign target literal).text = "set" ++ " " ++ (target ++ " = " ++ literal) := by
    change "set " ++ target ++ " = " ++ literal = "set " ++ (target ++ " = " ++ literal)
    simp only [String.append_assoc]
  have hline := startsWith_append "set" rfl (by decide) rfl (target ++ " = " ++ literal)
  rw [htext, read?_set hline (sides_shown "set" htarget literal)]

theorem read?_text_calculate {target : String} (htarget : '=' ∉ target.toList) (expression : String) :
    read? (Block.calculate target expression).text =
      .ok (some (block (.calculate (trim target) (trim expression)))) := by
  have htext : (Block.calculate target expression).text = "calc" ++ " " ++ (target ++ " = " ++ expression) := by
    change "calc " ++ target ++ " = " ++ expression = "calc " ++ (target ++ " = " ++ expression)
    simp only [String.append_assoc]
  have hline := startsWith_append "calc" rfl (by decide) rfl (target ++ " = " ++ expression)
  rw [htext, read?_calc hline (sides_shown "calc" htarget expression)]

end Command

/-! ## Blocks that are shown and read back -/

theorem execDeclare_joined (entries : List String) (env : Env) :
    execDeclare [trim (", ".intercalate entries)] env = execDeclare entries env := by
  rw [execDeclare, execDeclare, declaredNames_joined]

theorem execAssign_trim (target literal : String) (env : Env) :
    execAssign (trim target) literal env = execAssign target literal env := by
  rw [execAssign, execAssign, execAssignWith, execAssignWith, Text.trim_trim]

theorem execCalculate_trim (target expression : String) (env : Env) :
    execCalculate (trim target) expression env = execCalculate target expression env := by
  rw [execCalculate, execCalculate, execCalculateWith, execCalculateWith, Text.trim_trim]

/-- Whether the line of a block can be read back: the block has no body, and if it has a target, then the target holds
no equals sign and the side that it is given is trimmed. -/
def Block.Typable : Block → Prop
  | declare _ => True
  | assign target given | calculate target given => '=' ∉ target.toList ∧ trim given = given
  | cond _ _ _ _ => False

/-- **The line that shows a block is a line that does what the block does.** It is read as a block of the same kind,
which from every environment runs as the block itself: to the same environment, or to the same failure. -/
theorem Block.run_shown {b : Block} (h : b.Typable) :
    ∃ b', Command.read? b.text = .ok (some (.block b')) ∧ b'.kind = b.kind ∧ ∀ env, run [b'] env = run [b] env := by
  cases b with
  | declare names =>
    refine ⟨_, Command.read?_text_declare names, rfl, fun env => ?_⟩
    rw [run_singleton, run_singleton, Block.exec, Block.exec, execDeclare_joined]
  | assign target literal =>
    obtain ⟨htarget, hliteral⟩ := h
    refine ⟨_, Command.read?_text_assign htarget literal, rfl, fun env => ?_⟩
    rw [run_singleton, run_singleton, Block.exec, Block.exec, hliteral, execAssign_trim]
  | calculate target expression =>
    obtain ⟨htarget, hexpression⟩ := h
    refine ⟨_, Command.read?_text_calculate htarget expression, rfl, fun env => ?_⟩
    rw [run_singleton, run_singleton, Block.exec, Block.exec, hexpression, execCalculate_trim]
  | cond lhs op rhs body => exact h.elim

/-- The target has blanks at both ends, and the expression holds the sign that ends a target. -/
theorem Block.run_shown_second_equals :
    (Block.calculate "\u3000x " "a = b").Typable ∧
      ∃ b', Command.read? (Block.calculate "\u3000x " "a = b").text = .ok (some (.block b')) ∧
        b'.kind = .calculate ∧ ∀ env, run [b'] env = run [.calculate "\u3000x " "a = b"] env :=
  have h : (Block.calculate "\u3000x " "a = b").Typable := ⟨by decide +kernel, by decide +kernel⟩
  ⟨h, Block.run_shown h⟩

end BlockScript
