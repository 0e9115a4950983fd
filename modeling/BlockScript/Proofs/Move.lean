import BlockScript.Proofs.Placement
import BlockScript.Program.Edit

/-!
# What a move does

Insertion and removal are placements of a block (`insert_yields_iff`, `remove_yields_iff`): they go down to a sequence
by indices, and `Places` goes down block by block, so both are matched index by index first (`ThroughBodies`).

A move takes its block out and puts it in at a corrected place. Since placements can be exchanged, **a move is an
insertion of a copy followed by the removal of the original**. It succeeds exactly if the block is there, the target is
not inside it and the target is a place of the program as it is, and it loses and repeats nothing (`move_iff`).
-/

namespace BlockScript

variable {b : Block} {bs bs' : List Block} {i j : Nat} {p : Path}

/-! ## Placements by index -/

theorem places_singleton_iff : Places b [i] bs bs' ↔ i ≤ bs.length ∧ bs' = bs.insertIdx i b := by
  constructor
  · intro h
    induction i generalizing bs bs' with
    | zero =>
      cases h with
      | here => exact ⟨Nat.zero_le _, rfl⟩
      | inside _ _ _ _ h => exact absurd h Places.not_nil
    | succ i ih =>
      cases h with
      | later a h =>
        obtain ⟨hi, rfl⟩ := ih h
        exact ⟨Nat.succ_le_succ hi, rfl⟩
  · rintro ⟨hi, rfl⟩
    induction i generalizing bs with
    | zero => exact .here bs
    | succ i ih =>
      cases bs with
      | nil => cases hi
      | cons a bs => exact .later a (ih (Nat.le_of_succ_le_succ hi))

theorem places_singleton_iff_right : Places b [i] bs bs' ↔ bs'[i]? = some b ∧ bs = bs'.eraseIdx i := by
  constructor
  · intro h
    induction i generalizing bs bs' with
    | zero =>
      cases h with
      | here => exact ⟨rfl, rfl⟩
      | inside _ _ _ _ h => exact absurd h Places.not_nil
    | succ i ih =>
      cases h with
      | later a h =>
        obtain ⟨hb, rfl⟩ := ih h
        exact ⟨hb, rfl⟩
  · rintro ⟨hb, rfl⟩
    induction i generalizing bs' with
    | zero =>
      cases bs' with
      | nil => cases hb
      | cons a bs' => cases hb; exact .here bs'
    | succ i ih =>
      cases bs' with
      | nil => cases hb
      | cons a bs' => exact .later a (ih hb)

/-- Inside a block, the relation holds of two sequences that differ in the body of that block and in nothing else, and
it holds of the two bodies. -/
def ThroughBodies (R : Path → List Block → List Block → Prop) : Prop :=
  ∀ i j p bs bs', R (i :: j :: p) bs bs' ↔ ∃ lhs op rhs body body', bs[i]? = some (.cond lhs op rhs body) ∧
    bs' = bs.set i (.cond lhs op rhs body') ∧ R (j :: p) body body'

theorem throughBodies_places (b : Block) : ThroughBodies (Places b) := by
  intro i j p bs bs'
  constructor
  · intro h
    induction i generalizing bs bs' with
    | zero =>
      cases h with
      | inside lhs op rhs _ h => exact ⟨lhs, op, rhs, _, _, rfl, rfl, h⟩
    | succ i ih =>
      cases h with
      | later a h =>
        obtain ⟨lhs, op, rhs, body, body', hbody, rfl, hplaces⟩ := ih _ _ h
        exact ⟨lhs, op, rhs, body, body', hbody, rfl, hplaces⟩
  · rintro ⟨lhs, op, rhs, body, body', hbody, rfl, hplaces⟩
    induction i generalizing bs with
    | zero =>
      cases bs with
      | nil => cases hbody
      | cons a bs => cases hbody; exact .inside lhs op rhs bs hplaces
    | succ i ih =>
      cases bs with
      | nil => cases hbody
      | cons a bs => exact .later a (ih bs hbody)

/-- A changed body can be changed back. -/
theorem change_back {Q : List Block → List Block → Prop} (h : ∃ lhs op rhs body body',
    bs[i]? = some (.cond lhs op rhs body) ∧ bs' = bs.set i (.cond lhs op rhs body') ∧ Q body body') :
    ∃ lhs op rhs body body',
      bs'[i]? = some (.cond lhs op rhs body) ∧ bs = bs'.set i (.cond lhs op rhs body') ∧ Q body' body := by
  obtain ⟨lhs, op, rhs, body, body', hbody, rfl, hbodies⟩ := h
  obtain ⟨hi, hget⟩ := List.getElem?_eq_some_iff.1 hbody
  refine ⟨lhs, op, rhs, body', body, List.getElem?_set_self hi, ?_, hbodies⟩
  rw [List.set_set, ← hget, List.set_getElem_self]

theorem throughBodies_places_flip (b : Block) : ThroughBodies fun p bs bs' => Places b p bs' bs :=
  fun i j p bs bs' => (throughBodies_places b i j p bs' bs).trans ⟨change_back, change_back⟩

/-! ## Edits of a sequence -/

namespace Block

variable {α : Type} {a : α} {parent q : Path} {edit : List Block → Except TreeError (α × List Block)}

theorem editSequence_cons_eq_ok_iff : editSequence parent edit (i :: q) bs = .ok (a, bs') ↔
    ∃ lhs op rhs body body', bs[i]? = some (.cond lhs op rhs body) ∧ bs' = bs.set i (.cond lhs op rhs body') ∧
      editSequence parent edit q body = .ok (a, body') := by
  rw [editSequence]
  constructor
  · intro h
    split at h
    · rename_i lhs op rhs body hbody
      cases hedit : editSequence parent edit q body with
      | error e => rw [hedit] at h; cases h
      | ok r =>
        rw [hedit] at h
        cases h
        exact ⟨lhs, op, rhs, body, r.2, hbody, rfl, hedit⟩
    · cases h
    · cases h
  · rintro ⟨lhs, op, rhs, body, body', hbody, rfl, hedit⟩
    rw [hbody]
    simp only
    rw [hedit]
    rfl

/-- What an edit does to the sequence itself, it does to the blocks at the start of the path, if that goes through
bodies. -/
theorem editSequence_eq_ok_iff {R : Path → List Block → List Block → Prop} (hR : ThroughBodies R)
    (hhere : ∀ bs bs', edit bs = .ok (a, bs') ↔ R [i] bs bs') :
    editSequence parent edit q bs = .ok (a, bs') ↔ R (q ++ [i]) bs bs' := by
  induction q generalizing bs bs' with
  | nil => rw [editSequence, hhere, List.nil_append]
  | cons j q ih =>
    obtain ⟨k, p, hkp⟩ : ∃ k p, q ++ [i] = k :: p := List.exists_cons_of_ne_nil (by simp)
    rw [editSequence_cons_eq_ok_iff, List.cons_append, hkp, hR, ← hkp]
    simp only [ih]

end Block

/-! ## Edits of a program -/

namespace Program

/-- Made in `t`, the edit succeeds with the answer `a` and leaves `t'`. -/
def Edit.Yields {α : Type} (e : Edit α) (t : Program) (a : α) (t' : Program) : Prop := e.run.run t = (.ok a, t')

section Yields

variable {α β : Type} {e : Edit α} {f : α → Edit β} {t t' : Program} {a : α}

theorem Edit.run_bind : (e >>= f).run.run t = match e.run.run t with
    | (.ok a, s) => (f a).run.run s
    | (.error err, s) => (.error err, s) := by
  rw [ExceptT.run_bind, StateT.run_bind]
  obtain ⟨r, s⟩ := e.run.run t
  cases r <;> rfl

theorem Edit.run_tryCatch {recover : TreeError → Edit α} : (tryCatch e recover).run.run t = match e.run.run t with
    | (.ok a, s) => (.ok a, s)
    | (.error err, s) => (recover err).run.run s := by
  rw [ExceptT.run_tryCatch, StateT.run_bind]
  obtain ⟨r, s⟩ := e.run.run t
  cases r <;> rfl

theorem yields_bind_iff {c : β} :
    Edit.Yields (e >>= f) t c t' ↔ ∃ a s, e.Yields t a s ∧ (f a).Yields s c t' := by
  rw [Edit.Yields, Edit.run_bind]
  constructor
  · intro h
    split at h
    · rename_i a s hs
      exact ⟨a, s, hs, h⟩
    · cases h
  · rintro ⟨a, s, hs, h⟩
    rw [hs]
    exact h

theorem not_yields_throw {err : TreeError} : ¬ Edit.Yields (throw err : Edit α) t a t' := by
  intro h
  cases h

/-- An edit that always fails in the end cannot make good for a failure. -/
theorem yields_tryCatch_iff {recover : TreeError → Edit α} (h : ∀ err s, ¬ (recover err).Yields s a t') :
    Edit.Yields (tryCatch e recover) t a t' ↔ e.Yields t a t' := by
  rw [Edit.Yields, Edit.Yields, Edit.run_tryCatch]
  split
  · rename_i c s hs
    rw [hs]
  · rename_i err s hs
    rw [hs]
    exact ⟨fun hr => absurd hr (h err s), nofun⟩

end Yields

variable {α : Type} {a : α} {t t' : Program} {p source target : Path}

theorem editAt_yields_iff {edit : Nat → List Block → Except TreeError (α × List Block)} :
    (editAt p edit).Yields t a t' ↔ ∃ parent i, p = parent ++ [i] ∧
      Block.editSequence parent (edit i) parent t.blocks = .ok (a, t'.blocks) := by
  simp only [← Path.splitLast?_eq_some_iff]
  rw [editAt]
  cases hp : p.splitLast? with
  | none => exact ⟨fun h => absurd h not_yields_throw, nofun⟩
  | some r =>
    obtain ⟨parent, i⟩ := r
    refine yields_bind_iff.trans ?_
    constructor
    · rintro ⟨s, s', hget, h⟩
      cases hget
      refine ⟨parent, i, rfl, ?_⟩
      cases hedit : Block.editSequence parent (edit i) parent t.blocks with
      | error err =>
        simp only [hedit] at h
        exact absurd h not_yields_throw
      | ok r =>
        simp only [hedit] at h
        cases h
        rfl
    · rintro ⟨parent', i', hpath, hedit⟩
      cases hpath
      refine ⟨t, t, rfl, ?_⟩
      simp only [hedit]
      rfl

theorem editAt_yields_iff_rel {edit : Nat → List Block → Except TreeError (α × List Block)}
    {R : Path → List Block → List Block → Prop} (hR : ThroughBodies R) (hroot : ∀ bs bs', ¬ R [] bs bs')
    (hhere : ∀ i bs bs', edit i bs = .ok (a, bs') ↔ R [i] bs bs') :
    (editAt p edit).Yields t a t' ↔ R p t.blocks t'.blocks := by
  rw [editAt_yields_iff]
  constructor
  · rintro ⟨parent, i, rfl, h⟩
    exact (Block.editSequence_eq_ok_iff hR (hhere i)).1 h
  · intro h
    have hne : p ≠ [] := by
      rintro rfl
      exact hroot _ _ h
    have hp := List.dropLast_concat_getLast hne
    rw [← hp] at h
    exact ⟨p.dropLast, p.getLast hne, hp.symm, (Block.editSequence_eq_ok_iff hR (hhere _)).2 h⟩

theorem insert_yields_iff {b : Block} : (insert p b).Yields t () t' ↔ Places b p t.blocks t'.blocks := by
  refine editAt_yields_iff_rel (throughBodies_places b) (fun _ _ => Places.not_nil) fun i bs bs' => ?_
  rw [places_singleton_iff]
  by_cases hi : i ≤ bs.length
  · simp [hi, eq_comm]
  · simp [hi]

theorem remove_yields_iff {b : Block} : (remove p).Yields t b t' ↔ Places b p t'.blocks t.blocks := by
  refine editAt_yields_iff_rel (throughBodies_places_flip b) (fun _ _ => Places.not_nil) fun i bs bs' => ?_
  rw [places_singleton_iff_right]
  cases hi : bs[i]? with
  | none => simp
  | some c => simp [eq_comm]

theorem move_yields_iff : (move source target).Yields t () t' ↔ target.isInside source = false ∧
    ∃ b s, (remove source).Yields t b s ∧ (insert (target.afterRemoval source) b).Yields s () t' := by
  cases hinside : target.isInside source with
  | true =>
    refine ⟨fun h => ?_, nofun⟩
    rw [move, if_pos hinside] at h
    obtain ⟨_, _, h, -⟩ := yields_bind_iff.1 h
    exact absurd h not_yields_throw
  | false =>
    rw [move, if_neg (by rw [hinside]; nofun)]
    refine yields_bind_iff.trans ?_
    have hrecover : ∀ b err s, ¬ Edit.Yields (insert source b >>= fun _ => throw err) s () t' := by
      intro b err s h
      obtain ⟨_, _, -, h⟩ := yields_bind_iff.1 h
      exact not_yields_throw h
    simp only [yields_tryCatch_iff (hrecover _), true_and]

/-- A move in terms of placements: the program is `bs` with the block at the source, and becomes `bs` with the block at
the target, as the target is found in `bs`. -/
theorem move_yields_iff_places : (move source target).Yields t () t' ↔ target.isInside source = false ∧
    ∃ b bs, Places b source bs t.blocks ∧ Places b (target.afterRemoval source) bs t'.blocks := by
  rw [move_yields_iff]
  refine and_congr_right fun _ => exists_congr fun b => ?_
  constructor
  · rintro ⟨s, hremove, hinsert⟩
    exact ⟨s.blocks, remove_yields_iff.1 hremove, insert_yields_iff.1 hinsert⟩
  · rintro ⟨bs, hremove, hinsert⟩
    exact ⟨⟨bs⟩, remove_yields_iff.2 hremove, insert_yields_iff.2 hinsert⟩

theorem exists_insert_yields_iff (t : Program) (p : Path) (b : Block) :
    (∃ t', (insert p b).Yields t () t') ↔ t.HasSlot p := by
  constructor
  · rintro ⟨t', h⟩
    exact (insert_yields_iff.1 h).hasSlot
  · intro h
    obtain ⟨bs', hplaces⟩ := exists_places_of_hasSlot b h
    exact ⟨⟨bs'⟩, insert_yields_iff.2 hplaces⟩

theorem exists_move_yields_iff (t : Program) (source target : Path) :
    (∃ t', (move source target).Yields t () t') ↔
      (∃ b, t.get? source = some b) ∧ target.isInside source = false ∧ t.HasSlot target := by
  simp only [move_yields_iff_places]
  constructor
  · rintro ⟨t', hinside, b, bs, hsource, htarget⟩
    obtain ⟨bs₁, hcopy, -⟩ := hsource.join htarget hinside
    exact ⟨⟨b, hsource.get?_eq⟩, hinside, hcopy.hasSlot⟩
  · rintro ⟨⟨b, hget⟩, hinside, hslot⟩
    obtain ⟨bs, hsource⟩ := exists_places_of_get? hget
    obtain ⟨bs₁, hcopy⟩ := exists_places_of_hasSlot b hslot
    obtain ⟨bs', htarget, -⟩ := hsource.exchange hcopy hinside
    exact ⟨⟨bs'⟩, hinside, b, bs, hsource, htarget⟩

/-- All blocks of the program at all levels, in the order of the walk and each without what is inside it. -/
def bares (t : Program) : List Block := t.walk.map fun v => v.2.bare

theorem bares_eq (t : Program) : t.bares = Block.bares t.blocks := by
  rw [bares, walk_eq_preorderFrom]
  rfl

theorem length_bares (t : Program) : t.bares.length = t.count := List.length_map _

/-- **A move puts a copy of the block at the target and takes the original away.** It succeeds exactly if there is a
block at the source, the target is not inside it, and a block can be put at the target. -/
theorem move_iff (t : Program) (source target : Path) :
    ((∃ t', (move source target).Yields t () t') ↔
      (∃ b, t.get? source = some b) ∧ target.isInside source = false ∧ t.HasSlot target) ∧
    (∀ b, (∃ t', (insert target b).Yields t () t') ↔ t.HasSlot target) ∧
    ∀ t', (move source target).Yields t () t' →
      (∃ b t₁, t.get? source = some b ∧ (insert target b).Yields t () t₁ ∧
        (remove (source.afterInsertion target)).Yields t₁ b t') ∧
      t'.bares.Perm t.bares ∧ t'.count = t.count := by
  refine ⟨exists_move_yields_iff t source target, exists_insert_yields_iff t target, ?_⟩
  intro t' h
  obtain ⟨hinside, b, bs, hsource, htarget⟩ := move_yields_iff_places.1 h
  obtain ⟨bs₁, hcopy, horiginal⟩ := hsource.join htarget hinside
  have hperm : t'.bares.Perm t.bares := by
    rw [bares_eq, bares_eq]
    exact htarget.perm_bares.trans hsource.perm_bares.symm
  refine ⟨⟨b, ⟨bs₁⟩, hsource.get?_eq, insert_yields_iff.2 hcopy, remove_yields_iff.2 horiginal⟩, hperm, ?_⟩
  rw [← length_bares, ← length_bares, hperm.length_eq]

/-- A program with a condition inside a condition. -/
def shelf : Program :=
  ⟨[.declare ["x"], .assign "x" "1", .cond "x" .gt "0" [.calculate "x" "x + 1", .cond "x" .lt "9" []]]⟩

/-- The same with the first block moved into the inner condition, whose path begins with 1 from then on. -/
def shelved : Program :=
  ⟨[.assign "x" "1", .cond "x" .gt "0" [.calculate "x" "x + 1", .cond "x" .lt "9" [.declare ["x"]]]]⟩

theorem move_iff_shelf : (move [0] [2, 1, 0]).Yields shelf () shelved ∧
    shelved.bares.Perm shelf.bares ∧ shelved.count = shelf.count :=
  have h : (move [0] [2, 1, 0]).Yields shelf () shelved := rfl
  ⟨h, ((move_iff shelf [0] [2, 1, 0]).2.2 shelved h).2⟩

end Program

end BlockScript
