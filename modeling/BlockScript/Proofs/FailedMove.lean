import BlockScript.Proofs.Move

/-!
# Edits that fail

A failed insertion or removal has changed nothing (`Edit.Fails.editAt_eq`). With a move this is not plain: it takes its
block out first, and may then find that the block cannot be put in at the target. The block goes back to where it was,
and this never fails, because a removal read backwards is an insertion at the same place (`insert_yields_of_remove`).

So a move fails in one of three ways (`move_fails_iff`), and in each of them **the program is left as it was**
(`move_fails_unchanged`).
-/

namespace BlockScript.Program

/-- Made in `t`, the edit fails with the error `err` and leaves `t'`. -/
def Edit.Fails {α : Type} (e : Edit α) (t : Program) (err : TreeError) (t' : Program) : Prop :=
  e.run.run t = (.error err, t')

section Fails

variable {α β : Type} {e : Edit α} {t t' s s' : Program} {err err' : TreeError} {a a' : α}

theorem Edit.Yields.not_fails (h : e.Yields t a s) : ¬ e.Fails t err s' := by
  intro hfails
  rw [Edit.Yields] at h
  rw [Edit.Fails, h] at hfails
  cases hfails

theorem Edit.Yields.state_unique (h : e.Yields t a s) (h' : e.Yields t a' s') : s' = s := by
  rw [Edit.Yields] at h h'
  rw [h] at h'
  cases h'
  rfl

theorem Edit.Fails.error_unique (h : e.Fails t err s) (h' : e.Fails t err' s') : err' = err := by
  rw [Edit.Fails] at h h'
  rw [h] at h'
  cases h'
  rfl

theorem fails_throw_iff : Edit.Fails (throw err : Edit α) t err' t' ↔ err' = err ∧ t' = t := by
  constructor
  · intro h
    cases h
    exact ⟨rfl, rfl⟩
  · rintro ⟨rfl, rfl⟩
    rfl

/-- Two edits in a row fail if the first one fails, or if the second one fails in what the first one left. -/
theorem fails_bind_iff {f : α → Edit β} :
    Edit.Fails (e >>= f) t err t' ↔ e.Fails t err t' ∨ ∃ a s, e.Yields t a s ∧ (f a).Fails s err t' := by
  rw [Edit.Fails, Edit.run_bind]
  constructor
  · intro h
    split at h
    · rename_i a s hs
      exact .inr ⟨a, s, hs, h⟩
    · rename_i err₀ s hs
      cases h
      exact .inl hs
  · rintro (h | ⟨a, s, hs, h⟩)
    · rw [Edit.Fails] at h
      rw [h]
    · rw [Edit.Yields] at hs
      rw [hs]
      exact h

theorem fails_tryCatch_iff {recover : TreeError → Edit α} :
    Edit.Fails (tryCatch e recover) t err t' ↔ ∃ err₀ s, e.Fails t err₀ s ∧ (recover err₀).Fails s err t' := by
  rw [Edit.Fails, Edit.run_tryCatch]
  constructor
  · intro h
    split at h
    · cases h
    · rename_i err₀ s hs
      exact ⟨err₀, s, hs, h⟩
  · rintro ⟨err₀, s, hs, h⟩
    rw [Edit.Fails] at hs
    rw [hs]
    exact h

/-- An edit at a path fails if there is no sequence that the path ends in, or if the sequence cannot be edited. The
program is written to only after that. -/
theorem editAt_fails_iff {p : Path} {edit : Nat → List Block → Except TreeError (α × List Block)} :
    (editAt p edit).Fails t err t' ↔ t' = t ∧ (p = [] ∧ err = .invalidPath [] ∨
      ∃ parent i, p = parent ++ [i] ∧ Block.editSequence parent (edit i) parent t.blocks = .error err) := by
  simp only [← Path.splitLast?_eq_some_iff]
  rw [editAt]
  cases hp : p.splitLast? with
  | none =>
    obtain rfl : p = [] := by
      rcases List.eq_nil_or_concat p with rfl | ⟨parent, i, rfl⟩
      · rfl
      · rw [List.concat_eq_append, Path.splitLast?_eq_some_iff.2 rfl] at hp
        cases hp
    refine fails_throw_iff.trans ⟨fun h => ⟨h.2, .inl ⟨rfl, h.1⟩⟩, ?_⟩
    rintro ⟨rfl, ⟨-, rfl⟩ | ⟨_, _, hparent, -⟩⟩
    · exact ⟨rfl, rfl⟩
    · cases hparent
  | some r =>
    obtain ⟨parent, i⟩ := r
    have hne : p ≠ [] := by
      rintro rfl
      cases hp
    refine fails_bind_iff.trans ?_
    constructor
    · rintro (hget | ⟨s, s', hget, h⟩)
      · cases hget
      · cases hget
        cases hedit : Block.editSequence parent (edit i) parent t.blocks with
        | error err =>
          simp only [hedit] at h
          obtain ⟨rfl, rfl⟩ := fails_throw_iff.1 h
          exact ⟨rfl, .inr ⟨parent, i, rfl, hedit⟩⟩
        | ok r =>
          simp only [hedit] at h
          cases h
    · rintro ⟨rfl, ⟨hroot, -⟩ | ⟨parent', i', hpath, hedit⟩⟩
      · exact absurd hroot hne
      · cases hpath
        refine .inr ⟨t', t', rfl, ?_⟩
        simp only [hedit]
        exact fails_throw_iff.2 ⟨rfl, rfl⟩

theorem Edit.Fails.editAt_eq {p : Path} {edit : Nat → List Block → Except TreeError (α × List Block)}
    (h : (editAt p edit).Fails t err t') : t' = t := (editAt_fails_iff.1 h).1

end Fails

variable {t t' s : Program} {p source target : Path} {b : Block} {err : TreeError}

/-- A removal is an insertion read backwards. -/
theorem remove_yields_iff_insert : (remove p).Yields t b s ↔ (insert p b).Yields s () t :=
  remove_yields_iff.trans insert_yields_iff.symm

/-- What was taken out can be put back, and then the program is what it was. -/
theorem insert_yields_of_remove (h : (remove p).Yields t b s) : (insert p b).Yields s () t :=
  remove_yields_iff_insert.1 h

/-- Putting the block back after a failure succeeds, so that the failure is told and nothing else. -/
theorem putBack_fails_iff {err₀ : TreeError} (h : (remove source).Yields t b s) :
    Edit.Fails (do insert source b; throw err₀ : Edit Unit) s err t' ↔ err = err₀ ∧ t' = t := by
  have hback := insert_yields_of_remove h
  rw [fails_bind_iff]
  constructor
  · rintro (hfails | ⟨_, s', hs', hthrow⟩)
    · exact absurd hfails hback.not_fails
    · obtain ⟨rfl, rfl⟩ := fails_throw_iff.1 hthrow
      exact ⟨rfl, hback.state_unique hs'⟩
  · rintro ⟨rfl, rfl⟩
    exact .inr ⟨(), t', hback, fails_throw_iff.2 ⟨rfl, rfl⟩⟩

/-- A move fails because the target is inside the block, because there is no block, or because the block cannot be put
in where the target is found without it. -/
theorem move_fails_iff : (move source target).Fails t err t' ↔ t' = t ∧
    (target.isInside source = true ∧ err = .intoOwnSubtree source target ∨
      target.isInside source = false ∧ ((remove source).Fails t err t ∨
        ∃ b s, (remove source).Yields t b s ∧ (insert (target.afterRemoval source) b).Fails s err s)) := by
  cases hinside : target.isInside source with
  | true =>
    rw [move, if_pos hinside]
    refine fails_bind_iff.trans ?_
    constructor
    · rintro (hthrow | ⟨_, _, hthrow, -⟩)
      · obtain ⟨rfl, rfl⟩ := fails_throw_iff.1 hthrow
        exact ⟨rfl, .inl ⟨rfl, rfl⟩⟩
      · exact absurd hthrow not_yields_throw
    · rintro ⟨rfl, ⟨-, rfl⟩ | ⟨⟨⟩, -⟩⟩
      exact .inl (fails_throw_iff.2 ⟨rfl, rfl⟩)
  | false =>
    rw [move, if_neg (by rw [hinside]; exact Bool.false_ne_true)]
    refine fails_bind_iff.trans ?_
    constructor
    · rintro (hremove | ⟨b, s, hremove, hcatch⟩)
      · obtain rfl := hremove.editAt_eq
        exact ⟨rfl, .inr ⟨rfl, .inl hremove⟩⟩
      · obtain ⟨err₀, s', hinsert, hback⟩ := fails_tryCatch_iff.1 hcatch
        -- the insertion at the target has changed nothing, so the block goes back into what the removal left
        obtain rfl := hinsert.editAt_eq
        obtain ⟨rfl, rfl⟩ := (putBack_fails_iff hremove).1 hback
        exact ⟨rfl, .inr ⟨rfl, .inr ⟨b, s', hremove, hinsert⟩⟩⟩
    · rintro ⟨rfl, ⟨⟨⟩, -⟩ | ⟨-, hremove | ⟨b, s, hremove, hinsert⟩⟩⟩
      · exact .inl hremove
      · have hback : Edit.Fails (do insert source b; throw err : Edit Unit) s err t' :=
          (putBack_fails_iff hremove).2 ⟨rfl, rfl⟩
        exact .inr ⟨b, s, hremove, fails_tryCatch_iff.2 ⟨err, s, hinsert, hback⟩⟩

/-- **A failed move leaves the program as it was.** If the block has been taken out and cannot be put in at the target,
nothing keeps it from going back to where it was, so that it is there again with all that is inside it, and the error
is the one of the insertion at the target. -/
theorem move_fails_unchanged (t : Program) (source target : Path) :
    (∀ err t', (move source target).Fails t err t' → t' = t) ∧
    ∀ b s err s', (remove source).Yields t b s → (insert (target.afterRemoval source) b).Fails s err s' →
      s' = s ∧ (insert source b).Yields s' () t ∧ t.get? source = some b ∧
        (target.isInside source = false → (move source target).Fails t err t) := by
  refine ⟨fun err t' h => (move_fails_iff.1 h).1, ?_⟩
  intro b s err s' hremove hinsert
  obtain rfl := hinsert.editAt_eq
  refine ⟨rfl, insert_yields_of_remove hremove, (remove_yields_iff.1 hremove).get?_eq, ?_⟩
  intro hinside
  exact move_fails_iff.2 ⟨rfl, .inr ⟨hinside, .inr ⟨b, s', hremove, hinsert⟩⟩⟩

/-- A condition with another one inside does not go into a declaration, and stays whole. -/
theorem move_fails_unchanged_shelf :
    shelf.get? [2] = some (.cond "x" .gt "0" [.calculate "x" "x + 1", .cond "x" .lt "9" []]) ∧
      (move [2] [0, 0]).Fails shelf (.notAContainer [0]) shelf :=
  have hremove : (remove [2]).Yields shelf (.cond "x" .gt "0" [.calculate "x" "x + 1", .cond "x" .lt "9" []])
      ⟨[.declare ["x"], .assign "x" "1"]⟩ := rfl
  have hinsert : (insert (Path.afterRemoval [0, 0] [2]) _).Fails ⟨[.declare ["x"], .assign "x" "1"]⟩
      (.notAContainer [0]) ⟨[.declare ["x"], .assign "x" "1"]⟩ := rfl
  have h := (move_fails_unchanged shelf [2] [0, 0]).2 _ _ _ _ hremove hinsert
  ⟨h.2.2.1, h.2.2.2 rfl⟩

end BlockScript.Program
