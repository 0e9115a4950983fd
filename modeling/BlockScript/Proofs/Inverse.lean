import BlockScript.Proofs.FailedMove

/-!
# Insertion and removal undo each other

A removal is an insertion read backwards (`remove_yields_iff_insert`), so each of the two takes back what the other has
done. A block can be taken out exactly where there is one, and put in exactly where a sequence has room for it.

When one of the two fails, the program is as it was, and what the error tells is true of it (`TreeError.AppliesTo`): on
the way down the path, there is no block where one is needed, or there is one that has no body
(`Block.editSequence_eq_error`), or the sequence at the end is too short (`get?_concat`). **Insertion and removal are
inverse to each other and fail for the reasons they give** (`insert_remove_inverse`).
-/

namespace BlockScript

open Program (get? sequence? insert remove)

/-! ## Sequences along a path -/

theorem Block.descend?_concat (b : Block) (q : Path) (i : Nat) :
    b.descend? (q ++ [i]) = (b.descend? q).bind fun c => c.body?.bind fun body => body[i]? := by
  induction q generalizing b with
  | nil =>
    change (b.body?.bind fun body => body[i]?.bind fun inner => inner.descend? []) = b.body?.bind fun body => body[i]?
    simp only [descend?, Option.bind_fun_some]
  | cons j q ih =>
    change (b.body?.bind fun body => body[j]?.bind fun inner => inner.descend? (q ++ [i])) =
      (b.body?.bind fun body => body[j]?.bind fun inner => inner.descend? q).bind _
    simp only [ih, Option.bind_assoc]

namespace Program

/-- The block at a path is the one with the last index in the sequence that the path ends in. -/
theorem get?_concat (t : Program) (parent : Path) (i : Nat) :
    t.get? (parent ++ [i]) = (t.sequence? parent).bind fun blocks => blocks[i]? := by
  cases parent with
  | nil =>
    change (t.blocks[i]?.bind fun b => b.descend? []) = t.blocks[i]?
    simp only [Block.descend?, Option.bind_fun_some]
  | cons j parent =>
    change (t.blocks[j]?.bind fun b => b.descend? (parent ++ [i])) =
      ((t.blocks[j]?.bind fun b => b.descend? parent).bind Block.body?).bind _
    simp only [Block.descend?_concat, Option.bind_assoc]

end Program

/-! ## Errors of an edit -/

namespace Block

variable {α : Type} {parent q : Path} {i : Nat} {b : Block} {bs : List Block} {err : TreeError}
  {edit : List Block → Except TreeError (α × List Block)}

theorem descend?_of_body?_none (h : b.body? = none) (hq : q ≠ []) : b.descend? q = none := by
  obtain ⟨j, r, rfl⟩ := List.exists_cons_of_ne_nil hq
  rw [descend?, h]
  rfl

/-- One step down the path: the edit fails further down in the body of a condition, at a block that has no body, or
where there is no block. -/
theorem editSequence_cons_eq_error (h : editSequence parent edit (i :: q) bs = .error err) :
    (∃ lhs op rhs body, bs[i]? = some (.cond lhs op rhs body) ∧ editSequence parent edit q body = .error err) ∨
      (∃ c, bs[i]? = some c ∧ c.body? = none ∧ err = if q = [] then .notAContainer parent else .invalidPath parent) ∨
      (bs[i]? = none ∧ err = .invalidPath parent) := by
  rw [editSequence] at h
  cases hblock : bs[i]? with
  | none =>
    rw [hblock] at h
    cases h
    exact .inr (.inr ⟨rfl, rfl⟩)
  | some c =>
    rw [hblock] at h
    cases c with
    | cond lhs op rhs body =>
      refine .inl ⟨lhs, op, rhs, body, rfl, ?_⟩
      cases hedit : editSequence parent edit q body with
      | error e =>
        simp only [hedit] at h
        cases h
        rfl
      | ok r =>
        simp only [hedit] at h
        cases h
    | declare _ | assign _ _ | calculate _ _ =>
      cases h
      exact .inr (.inl ⟨_, rfl, rfl, rfl⟩)

/-- An edit of the sequence at the end of a path fails in the sequence itself, at a block without a body, or where there
is no block. -/
theorem editSequence_eq_error (h : editSequence parent edit q bs = .error err) :
    (∃ blocks, sequence? ⟨bs⟩ q = some blocks ∧ edit blocks = .error err) ∨
      (err = .notAContainer parent ∧ q ≠ [] ∧ ∃ c, get? ⟨bs⟩ q = some c ∧ c.body? = none) ∨
      (err = .invalidPath parent ∧ q ≠ [] ∧ get? ⟨bs⟩ q = none) := by
  induction q generalizing bs with
  | nil => exact .inl ⟨bs, rfl, h⟩
  | cons i q ih =>
    rcases editSequence_cons_eq_error h with ⟨lhs, op, rhs, body, hbody, hinner⟩ | ⟨c, hc, hnone, rfl⟩ | ⟨hnone, rfl⟩
    · rw [Program.sequence?_of_cond hbody]
      rcases ih hinner with hsequence | ⟨rfl, hq, hlast⟩ | ⟨rfl, hq, hlast⟩
      · exact .inl hsequence
      · exact .inr (.inl ⟨rfl, List.cons_ne_nil i q, by rwa [Program.get?_of_cond hbody hq]⟩)
      · exact .inr (.inr ⟨rfl, List.cons_ne_nil i q, by rwa [Program.get?_of_cond hbody hq]⟩)
    · by_cases hq : q = []
      · subst hq
        exact .inr (.inl ⟨if_pos rfl, List.cons_ne_nil i [], c, Program.get?_of_getElem? hc [], hnone⟩)
      · have hget := (Program.get?_of_getElem? hc q).trans (descend?_of_body?_none hnone hq)
        exact .inr (.inr ⟨if_neg hq, List.cons_ne_nil i q, hget⟩)
    · exact .inr (.inr ⟨rfl, List.cons_ne_nil i q, Program.get?_of_getElem?_none hnone q⟩)

end Block

/-- What an error tells about an edit at a path is true of the program: the path ends in a block that has no body, or
there is no block at the path or at the end of its sequence's path. -/
def TreeError.AppliesTo (t : Program) (p : Path) : TreeError → Prop
  | notAContainer q => (∃ i, p = q ++ [i]) ∧ ∃ b, t.get? q = some b ∧ b.body? = none
  | invalidPath q => (q = p ∨ ∃ i, p = q ++ [i]) ∧ t.get? q = none
  | intoOwnSubtree _ _ => False

namespace Program

variable {t t' : Program} {p : Path} {b : Block} {err : TreeError}

theorem editAt_fails_applies {α : Type} {edit : Nat → List Block → Except TreeError (α × List Block)}
    (hedit : ∀ i blocks err, edit i blocks = .error err → err = .invalidPath p ∧ blocks[i]? = none)
    (h : (editAt p edit).Fails t err t') : t' = t ∧ err.AppliesTo t p := by
  obtain ⟨rfl, ⟨rfl, rfl⟩ | ⟨parent, i, rfl, hsequence⟩⟩ := editAt_fails_iff.1 h
  · exact ⟨rfl, .inl rfl, rfl⟩
  · refine ⟨rfl, ?_⟩
    rcases Block.editSequence_eq_error hsequence with ⟨blocks, hblocks, herror⟩ | ⟨rfl, -, hlast⟩ | ⟨rfl, -, hget⟩
    · obtain ⟨rfl, hshort⟩ := hedit i blocks err herror
      refine ⟨.inl rfl, ?_⟩
      rw [get?_concat, hblocks]
      exact hshort
    · exact ⟨⟨i, rfl⟩, hlast⟩
    · exact ⟨.inr ⟨i, rfl⟩, hget⟩

theorem insert_fails_applies (h : (insert p b).Fails t err t') : t' = t ∧ err.AppliesTo t p := by
  refine editAt_fails_applies (fun i blocks err herror => ?_) h
  split at herror
  · cases herror
  · rename_i hlong
    cases herror
    exact ⟨rfl, List.getElem?_eq_none (by omega)⟩

theorem remove_fails_applies (h : (remove p).Fails t err t') : t' = t ∧ err.AppliesTo t p := by
  refine editAt_fails_applies (fun i blocks err herror => ?_) h
  split at herror
  · cases herror
  · rename_i hnone
    cases herror
    exact ⟨rfl, hnone⟩

theorem exists_remove_yields_iff : (∃ t', (remove p).Yields t b t') ↔ t.get? p = some b := by
  constructor
  · rintro ⟨t', h⟩
    exact (remove_yields_iff.1 h).get?_eq
  · intro h
    obtain ⟨bs, hplaces⟩ := exists_places_of_get? h
    exact ⟨⟨bs⟩, remove_yields_iff.2 hplaces⟩

/-- **Insertion and removal undo each other and fail for the reasons they give.** A block can be taken out exactly where
it is, and put in exactly where a sequence has room for it. Each of the two restores the program that the other was made
in. If one of them fails, the program is as it was, and the error is true of it. -/
theorem insert_remove_inverse (t : Program) (p : Path) (b : Block) :
    ((∃ t', (remove p).Yields t b t') ↔ t.get? p = some b) ∧
      ((∃ t', (insert p b).Yields t () t') ↔ t.HasSlot p) ∧
      (∀ t', (insert p b).Yields t () t' → (remove p).Yields t' b t) ∧
      (∀ t', (remove p).Yields t b t' → (insert p b).Yields t' () t) ∧
      (∀ err t', (insert p b).Fails t err t' → t' = t ∧ err.AppliesTo t p) ∧
      ∀ err t', (remove p).Fails t err t' → t' = t ∧ err.AppliesTo t p :=
  ⟨exists_remove_yields_iff, exists_insert_yields_iff t p b, fun _ => remove_yields_iff_insert.2,
    fun _ => remove_yields_iff_insert.1, fun _ _ => insert_fails_applies, fun _ _ => remove_fails_applies⟩

/-- The program `shelf` without its inner condition. -/
def shelfCut : Program := ⟨[.declare ["x"], .assign "x" "1", .cond "x" .gt "0" [.calculate "x" "x + 1"]]⟩

/-- The inner condition can be taken out and put back; nothing can be put inside a declaration, nor is there anything
further down in an assignment. -/
theorem insert_remove_inverse_shelf :
    (insert [2, 1] (.cond "x" .lt "9" [])).Yields shelfCut () shelf ∧
      ((insert [0, 0] (.declare ["y"])).Fails shelf (.notAContainer [0]) shelf ∧
        TreeError.AppliesTo shelf [0, 0] (.notAContainer [0])) ∧
      (remove [1, 0, 2]).Fails shelf (.invalidPath [1, 0]) shelf ∧
        TreeError.AppliesTo shelf [1, 0, 2] (.invalidPath [1, 0]) := by
  have hremove : (remove [2, 1]).Yields shelf (.cond "x" .lt "9" []) shelfCut := rfl
  have hdeclare : (insert [0, 0] (.declare ["y"])).Fails shelf (.notAContainer [0]) shelf := rfl
  have hassign : (remove [1, 0, 2]).Fails shelf (.invalidPath [1, 0]) shelf := rfl
  obtain ⟨-, -, -, hback, -, -⟩ := insert_remove_inverse shelf [2, 1] (.cond "x" .lt "9" [])
  obtain ⟨-, -, -, -, hinsert, -⟩ := insert_remove_inverse shelf [0, 0] (.declare ["y"])
  obtain ⟨-, -, -, -, -, hfail⟩ := insert_remove_inverse shelf [1, 0, 2] (.declare ["y"])
  exact ⟨hback _ hremove, ⟨hdeclare, (hinsert _ _ hdeclare).2⟩, hassign, (hfail _ _ hassign).2⟩

end Program

end BlockScript
