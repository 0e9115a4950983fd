import BlockScript.Proofs.Inverse

/-!
# What a failed move tells

A move that has taken its block out looks for the target without it, and if the block cannot be put in there, the error
has the path at which the target was looked for. By then the block is back where it was, so the path may name another
place of the program than the one that was meant.

What a failed insertion tells is decided by the block whose body it should have gone into (`insert_fails_eq`), and
taking a block out changes nothing of the other blocks but their bodies (`Places.map_bare_get?`). So **a failed move
tells what an insertion at the target would have told, with the path moved up as by the removal**. The path is right as
it stands in all programs exactly if the target is not inside a later block of the sequence that the move takes its
block out of (`move_fails_readdressed`).
-/

namespace BlockScript

open Program (get? sequence? HasSlot insert remove move)

/-! ## Paths after a removal -/

namespace Path

theorem afterRemoval_nil_left (p : Path) : afterRemoval [] p = [] := by
  match p with
  | [] | [_] | _ :: _ :: _ => rfl

theorem afterRemoval_zero_succ (q : Path) (i : Nat) (p : Path) : afterRemoval (0 :: q) ((i + 1) :: p) = 0 :: q := by
  cases p with
  | nil => rfl
  | cons j p => rfl

theorem afterRemoval_ne_nil {p : Path} (h : p ≠ []) (removed : Path) : p.afterRemoval removed ≠ [] := by
  fun_cases afterRemoval p removed
  · exact List.cons_ne_nil _ _
  · exact List.cons_ne_nil _ _
  · exact List.cons_ne_nil _ _
  · exact h

/-- In the sequence of the removal, the index is taken down by one behind the block that is gone. -/
theorem afterRemoval_append (parent : Path) (i j : Nat) (q : Path) :
    (parent ++ j :: q).afterRemoval (parent ++ [i]) = parent ++ (if i < j then j - 1 else j) :: q := by
  induction parent with
  | nil => rfl
  | cons k parent ih =>
    obtain ⟨l, p, hp⟩ : ∃ l p, parent ++ [i] = l :: p := List.exists_cons_of_ne_nil (by simp)
    rw [List.cons_append, List.cons_append, List.cons_append, hp, afterRemoval_cons_cons, if_pos rfl, ← hp, ih]

/-- A path is moved up only if it leads to or through a later block of the sequence of the removal. -/
theorem afterRemoval_eq_or (p removed : Path) : p.afterRemoval removed = p ∨
    ∃ parent i j q, removed = parent ++ [i] ∧ p = parent ++ j :: q ∧ i < j := by
  fun_induction afterRemoval p removed with
  | case1 i p j =>
    by_cases h : j < i
    · exact .inr ⟨[], j, i, p, rfl, rfl, h⟩
    · rw [if_neg h]
      exact .inl rfl
  | case2 p j removed hne ih =>
    rcases ih with h | ⟨parent, i, k, q, rfl, rfl, h⟩
    · exact .inl (congrArg (List.cons j) h)
    · exact .inr ⟨j :: parent, i, k, q, rfl, rfl, h⟩
  | case3 => exact .inl rfl
  | case4 => exact .inl rfl

/-- The path of a sequence moves with the paths of the blocks in it. -/
theorem exists_afterRemoval_concat (parent : Path) (i : Nat) (removed : Path) :
    ∃ j, (parent ++ [i]).afterRemoval removed = parent.afterRemoval removed ++ [j] := by
  induction parent generalizing removed with
  | nil =>
    match removed with
    | [] => exact ⟨i, rfl⟩
    | [j] => exact ⟨_, rfl⟩
    | j :: l :: removed =>
      rw [List.nil_append, afterRemoval_cons_cons, afterRemoval_nil_left, afterRemoval_nil_left]
      exact ⟨i, ite_self [i]⟩
  | cons k parent ih =>
    match removed with
    | [] => exact ⟨i, rfl⟩
    | [j] => exact ⟨i, rfl⟩
    | j :: l :: removed =>
      rw [List.cons_append, afterRemoval_cons_cons, afterRemoval_cons_cons]
      by_cases hk : k = j
      · obtain ⟨m, hm⟩ := ih (l :: removed)
        rw [if_pos hk, if_pos hk, hm]
        exact ⟨m, rfl⟩
      · rw [if_neg hk, if_neg hk]
        exact ⟨i, rfl⟩

/-- A block that is not around a place is neither at nor around the path of the sequence that the place is in. -/
theorem not_prefix_of_isInside_concat_eq_false {parent source : Path} {i : Nat}
    (h : Path.isInside (parent ++ [i]) source = false) : ¬ source <+: parent := by
  intro hfront
  have hlength := hfront.length_le
  have hinside : Path.isInside (parent ++ [i]) source = true := by
    refine isInside_iff.2 ⟨hfront.trans (List.prefix_append _ _), ?_⟩
    rintro rfl
    rw [List.length_append, List.length_singleton] at hlength
    omega
  rw [h] at hinside
  cases hinside

theorem isInside_sibling_eq_false (parent : Path) {i j : Nat} (h : i ≠ j) (q : Path) :
    Path.isInside (parent ++ j :: q) (parent ++ [i]) = false := by
  rw [Bool.eq_false_iff, ne_eq, isInside_iff]
  rintro ⟨hfront, -⟩
  rw [List.prefix_append_right_inj, List.cons_prefix_cons] at hfront
  exact h hfront.1

/-- `p` leads to a place strictly inside a block that comes later in its sequence than the block at `q`. -/
def IsInsideLater (p q : Path) : Prop := ∃ parent i j k r, q = parent ++ [i] ∧ p = parent ++ j :: k :: r ∧ i < j

theorem isInsideLater_concat {i j : Nat} (h : i < j) (parent q : Path) (k : Nat) :
    IsInsideLater (parent ++ j :: q ++ [k]) (parent ++ [i]) := by
  obtain ⟨l, r, hr⟩ : ∃ l r, q ++ [k] = l :: r := List.exists_cons_of_ne_nil (by simp)
  exact ⟨parent, i, j, l, r, rfl, by rw [List.append_assoc, List.cons_append, hr], h⟩

end Path

/-! ## Blocks after a removal -/

/-- Without the block at `p`, every block that is not inside it is found where its path has moved to, and is what it was
but for its body. -/
theorem Places.map_bare_get? {b : Block} {p q : Path} {bs bs' : List Block} (h : Places b p bs bs') (hq : ¬ p <+: q) :
    (get? ⟨bs⟩ (q.afterRemoval p)).map Block.bare = (get? ⟨bs'⟩ q).map Block.bare := by
  induction h generalizing q with
  | here bs =>
    match q with
    | [] => rfl
    | 0 :: r => exact absurd ⟨r, rfl⟩ hq
    | (k + 1) :: r => rfl
  | @inside p body body' lhs op rhs bs h ih =>
    obtain ⟨i, p, rfl⟩ := h.exists_cons
    match q with
    | [] => rfl
    | [0] =>
      rw [Path.afterRemoval_cons_cons, if_pos rfl, Path.afterRemoval_nil_left]
      rfl
    | 0 :: j :: r =>
      have hinner := ih fun hfront => hq (List.cons_prefix_cons.2 ⟨rfl, hfront⟩)
      obtain ⟨k, r', hk, -⟩ := Path.afterRemoval_succ j i r p
      rw [Path.afterRemoval_cons_cons, if_pos rfl]
      rw [hk] at hinner ⊢
      have hbefore : get? ⟨.cond lhs op rhs body :: bs⟩ (0 :: k :: r') = get? ⟨body⟩ (k :: r') :=
        Program.descend?_cons (.cond lhs op rhs body) k r'
      have hbehind : get? ⟨.cond lhs op rhs body' :: bs⟩ (0 :: j :: r) = get? ⟨body'⟩ (j :: r) :=
        Program.descend?_cons (.cond lhs op rhs body') j r
      rw [hbefore, hbehind, hinner]
    | (k + 1) :: r => rfl
  | @later i p bs bs' a h ih =>
    match q with
    | [] =>
      rw [Path.afterRemoval_nil_left]
      rfl
    | 0 :: r =>
      rw [Path.afterRemoval_zero_succ]
      rfl
    | (k + 1) :: r =>
      have hrest : ¬ i :: p <+: k :: r := by
        intro hfront
        obtain ⟨rfl, hr⟩ := List.cons_prefix_cons.1 hfront
        exact hq (List.cons_prefix_cons.2 ⟨rfl, hr⟩)
      obtain ⟨l, r', hl, hl'⟩ := Path.afterRemoval_succ k i r p
      have hinner := ih hrest
      rw [hl] at hinner
      rw [hl']
      exact hinner

/-! ## What is told -/

namespace TreeError

/-- What the error tells is true of the program. -/
def IsTrueOf (t : Program) : TreeError → Prop
  | invalidPath q => t.get? q = none
  | notAContainer q => ∃ b, t.get? q = some b ∧ b.body? = none
  | intoOwnSubtree source target => target.isInside source = true

/-- The error with its path as it is found once the block at `removed` is gone. -/
def afterRemoval (removed : Path) : TreeError → TreeError
  | invalidPath q => .invalidPath (q.afterRemoval removed)
  | notAContainer q => .notAContainer (q.afterRemoval removed)
  | intoOwnSubtree source target => .intoOwnSubtree source target

/-- What is told if a block cannot be put at the index `i` of the sequence at `parent`, given the block at `parent`. -/
def ofSlot (parent : Path) (i : Nat) : Option Block → TreeError
  | none => .invalidPath (if parent = [] then [i] else parent)
  | some (.cond _ _ _ _) => .invalidPath (parent ++ [i])
  | some _ => .notAContainer parent

theorem AppliesTo.isTrueOf {t : Program} {p : Path} {err : TreeError} (h : err.AppliesTo t p) : err.IsTrueOf t := by
  cases err with
  | invalidPath q => exact h.2
  | notAContainer q => exact h.2
  | intoOwnSubtree _ _ => exact h.elim

/-- The body of the block does not matter. -/
theorem ofSlot_bare (parent : Path) (i : Nat) (b : Option Block) :
    ofSlot parent i (b.map Block.bare) = ofSlot parent i b := by
  match b with
  | none | some (.declare _) | some (.assign _ _) | some (.calculate _ _) | some (.cond _ _ _ _) => rfl

theorem afterRemoval_ofSlot {parent removed : Path} {i j : Nat} (b : Option Block)
    (h : (parent ++ [i]).afterRemoval removed = parent.afterRemoval removed ++ [j]) :
    (ofSlot parent i b).afterRemoval removed = ofSlot (parent.afterRemoval removed) j b := by
  match b with
  | some (.declare _) | some (.assign _ _) | some (.calculate _ _) => rfl
  | some (.cond _ _ _ _) => exact congrArg invalidPath h
  | none =>
    cases parent with
    | nil =>
      rw [Path.afterRemoval_nil_left] at h ⊢
      exact congrArg invalidPath h
    | cons k parent =>
      have hne : Path.afterRemoval (k :: parent) removed ≠ [] :=
        Path.afterRemoval_ne_nil (List.cons_ne_nil k parent) removed
      rw [ofSlot, ofSlot, if_neg (List.cons_ne_nil k parent), if_neg hne]
      rfl

end TreeError

namespace Program

variable {t s t' : Program} {b : Block} {parent source target : Path} {i : Nat} {err : TreeError}

/-- A failed insertion blames the path of its sequence if there is none, and the index if there is one. -/
theorem insert_fails_eq (h : (insert (parent ++ [i]) b).Fails t err t') : err = .ofSlot parent i (t.get? parent) := by
  obtain ⟨-, ⟨hroot, -⟩ | ⟨parent', i', hpath, hsequence⟩⟩ := editAt_fails_iff.1 h
  · exact absurd hroot (by simp)
  · obtain ⟨rfl, hi⟩ := List.append_inj' hpath rfl
    cases hi
    rcases Block.editSequence_eq_error hsequence with
      ⟨blocks, hblocks, herror⟩ | ⟨rfl, -, c, hc, hnone⟩ | ⟨rfl, hne, hnone⟩
    · split at herror
      · cases herror
      · cases herror
        cases parent with
        | nil => rfl
        | cons j parent =>
          obtain ⟨c, hc, hbody⟩ := Option.bind_eq_some_iff.1 hblocks
          change t.get? (j :: parent) = some c at hc
          rw [hc]
          cases c with
          | cond _ _ _ _ => rfl
          | declare _ | assign _ _ | calculate _ _ => cases hbody
    · change t.get? parent = some c at hc
      rw [hc]
      cases c with
      | cond _ _ _ _ => cases hnone
      | declare _ | assign _ _ | calculate _ _ => rfl
    · change t.get? parent = none at hnone
      rw [hnone, TreeError.ofSlot, if_neg hne]

theorem Edit.yields_or_fails {α : Type} (e : Edit α) (t : Program) :
    (∃ a t', e.Yields t a t') ∨ ∃ err t', e.Fails t err t' := by
  cases h : e.run.run t with
  | mk r t' =>
    cases r with
    | ok a => exact .inl ⟨a, t', h⟩
    | error err => exact .inr ⟨err, t', h⟩

/-- Insertions at the same place with and without a block tell the same if both fail, with the path moved up. -/
theorem insert_fails_afterRemoval {s' : Program} {err' : TreeError} {c : Block} (h : Places c source s.blocks t.blocks)
    (hinside : target.isInside source = false) (hs : (insert (target.afterRemoval source) b).Fails s err s')
    (ht : (insert target b).Fails t err' t') : err = err'.afterRemoval source := by
  rcases List.eq_nil_or_concat target with rfl | ⟨parent, i, rfl⟩
  · rw [Path.afterRemoval_nil_left] at hs
    obtain ⟨-, ⟨-, rfl⟩ | ⟨_, _, hpath, -⟩⟩ := editAt_fails_iff.1 hs
    · obtain ⟨-, ⟨-, rfl⟩ | ⟨_, _, hpath, -⟩⟩ := editAt_fails_iff.1 ht
      · rw [TreeError.afterRemoval, Path.afterRemoval_nil_left]
      · exact absurd hpath (by simp)
    · exact absurd hpath (by simp)
  · rw [List.concat_eq_append] at hs ht hinside
    obtain ⟨j, hj⟩ := Path.exists_afterRemoval_concat parent i source
    have hbare := h.map_bare_get? (Path.not_prefix_of_isInside_concat_eq_false hinside)
    rw [hj] at hs
    rw [insert_fails_eq hs, insert_fails_eq ht, TreeError.afterRemoval_ofSlot _ hj, ← TreeError.ofSlot_bare, hbare,
      TreeError.ofSlot_bare]

/-- A move of a block that is there fails as an insertion at the target does. -/
theorem exists_insert_fails_of_move (h : (move source target).Fails t err t') (hget : t.get? source = some b)
    (hinside : target.isInside source = false) :
    ∃ err', (insert target b).Fails t err' t ∧ err = err'.afterRemoval source := by
  obtain ⟨rfl, ⟨htrue, -⟩ | ⟨-, hremove | ⟨c, s, hremove, hinsert⟩⟩⟩ := move_fails_iff.1 h
  · rw [hinside] at htrue
    cases htrue
  · obtain ⟨s, hyields⟩ := exists_remove_yields_iff.2 hget
    exact absurd hremove hyields.not_fails
  · have hplaces := remove_yields_iff.1 hremove
    obtain rfl : c = b := Option.some.inj (hplaces.get?_eq.symm.trans hget)
    rcases (insert target c).yields_or_fails t' with ⟨_, t₁, hyields⟩ | ⟨err', t₁, hfails⟩
    · have hslot := (exists_insert_yields_iff t' target c).1 ⟨t₁, hyields⟩
      obtain ⟨t₂, hmove⟩ := (exists_move_yields_iff t' source target).2 ⟨⟨c, hget⟩, hinside, hslot⟩
      exact absurd h hmove.not_fails
    · obtain rfl := hfails.editAt_eq
      exact ⟨err', hfails, insert_fails_afterRemoval hplaces hinside hinsert hfails⟩

/-- Where no block can be put, no block can be moved to. -/
theorem move_fails_of_insert_fails (hget : t.get? source = some b) (hinside : target.isInside source = false)
    (hinsert : (insert target b).Fails t err t') : (move source target).Fails t (err.afterRemoval source) t := by
  rcases (move source target).yields_or_fails t with ⟨_, t₁, hyields⟩ | ⟨err₁, t₁, hfails⟩
  · obtain ⟨-, -, hslot⟩ := (exists_move_yields_iff t source target).1 ⟨t₁, hyields⟩
    obtain ⟨t₂, hyields⟩ := (exists_insert_yields_iff t target b).2 hslot
    exact absurd hinsert hyields.not_fails
  · obtain ⟨err', hinsert', rfl⟩ := exists_insert_fails_of_move hfails hget hinside
    obtain rfl := hinsert.error_unique hinsert'
    obtain rfl := (move_fails_iff.1 hfails).1
    exact hfails

/-- A move fails because the target is inside the block; as the removal does, because there is no block; or as an
insertion at the target does, but with the path moved up. -/
theorem move_fails_iff_insert_fails : (move source target).Fails t err t' ↔ t' = t ∧
    (target.isInside source = true ∧ err = .intoOwnSubtree source target ∨
      target.isInside source = false ∧ t.get? source = none ∧ (remove source).Fails t err t ∧ err.AppliesTo t source ∨
      target.isInside source = false ∧ ∃ b err', t.get? source = some b ∧ (insert target b).Fails t err' t ∧
        err'.AppliesTo t target ∧ err = err'.afterRemoval source) := by
  constructor
  · intro h
    obtain ⟨rfl, ⟨htrue, rfl⟩ | ⟨hfalse, hfails⟩⟩ := move_fails_iff.1 h
    · exact ⟨rfl, .inl ⟨htrue, rfl⟩⟩
    · refine ⟨rfl, .inr ?_⟩
      cases hget : t'.get? source with
      | none =>
        rcases hfails with hremove | ⟨b, s, hremove, -⟩
        · exact .inl ⟨hfalse, rfl, hremove, (remove_fails_applies hremove).2⟩
        · have hsome := exists_remove_yields_iff.1 ⟨s, hremove⟩
          rw [hget] at hsome
          cases hsome
      | some b =>
        obtain ⟨err', hinsert, herr⟩ := exists_insert_fails_of_move h hget hfalse
        exact .inr ⟨hfalse, b, err', rfl, hinsert, (insert_fails_applies hinsert).2, herr⟩
  · rintro ⟨rfl, hinside | ⟨hfalse, -, hremove, -⟩ | ⟨hfalse, b, err', hget, hinsert, -, rfl⟩⟩
    · exact move_fails_iff.2 ⟨rfl, .inl hinside⟩
    · exact move_fails_iff.2 ⟨rfl, .inr ⟨hfalse, .inl hremove⟩⟩
    · exact move_fails_of_insert_fails hget hfalse hinsert

/-- Nothing else is told to go into itself. -/
theorem move_fails_intoOwnSubtree_iff :
    (move source target).Fails t (.intoOwnSubtree source target) t ↔ target.isInside source = true := by
  rw [move_fails_iff_insert_fails]
  constructor
  · rintro ⟨-, ⟨htrue, -⟩ | ⟨-, -, -, happlies⟩ | ⟨-, b, err', -, -, happlies, herr⟩⟩
    · exact htrue
    · exact happlies.elim
    · cases err' with
      | intoOwnSubtree _ _ => exact happlies.elim
      | invalidPath _ | notAContainer _ => cases herr
  · intro htrue
    exact ⟨rfl, .inl ⟨htrue, rfl⟩⟩

/-- One place before a place where no block can be put, there is no block. -/
theorem get?_pred_eq_none {j : Nat} (hslot : ¬ t.HasSlot (parent ++ [j])) (hget : t.get? (parent ++ [i]) = some b) :
    t.get? (parent ++ [j - 1]) = none := by
  rw [get?_concat] at hget ⊢
  obtain ⟨blocks, hblocks, -⟩ := Option.bind_eq_some_iff.1 hget
  have hshort : ¬ j ≤ blocks.length := fun hj => hslot ⟨parent, j, blocks, rfl, hblocks, hj⟩
  rw [hblocks]
  exact List.getElem?_eq_none (by omega)

/-- The error is true as it stands if the target is not inside a later block of the sequence of the source. -/
theorem isTrueOf_of_move_fails (h : (move source target).Fails t err t') (hlater : ¬ target.IsInsideLater source) :
    err.IsTrueOf t := by
  obtain ⟨-, ⟨hinside, rfl⟩ | ⟨-, -, -, happlies⟩ | ⟨-, b, err', hget, hinsert, happlies, rfl⟩⟩ :=
    move_fails_iff_insert_fails.1 h
  · exact hinside
  · exact happlies.isTrueOf
  · cases err' with
    | intoOwnSubtree _ _ => exact happlies.elim
    | notAContainer q =>
      obtain ⟨⟨k, rfl⟩, c, hc, hnone⟩ := happlies
      rcases Path.afterRemoval_eq_or q source with hq | ⟨parent, i, j, r, rfl, rfl, hij⟩
      · exact ⟨c, by rw [hq, hc], hnone⟩
      · exact absurd (Path.isInsideLater_concat hij parent r k) hlater
    | invalidPath q =>
      obtain ⟨hq, hnone⟩ := happlies
      rcases Path.afterRemoval_eq_or q source with hsame | ⟨parent, i, j, r, rfl, rfl, hij⟩
      · exact (congrArg t.get? hsame).trans hnone
      · rcases hq with rfl | ⟨k, rfl⟩
        · cases r with
          | cons k r => exact absurd ⟨parent, i, j, k, r, rfl, rfl, hij⟩ hlater
          | nil =>
            have hslot : ¬ t.HasSlot (parent ++ [j]) := by
              intro hslot
              obtain ⟨t₁, hyields⟩ := (exists_insert_yields_iff t _ b).2 hslot
              exact hyields.not_fails hinsert
            change t.get? (Path.afterRemoval (parent ++ [j]) (parent ++ [i])) = none
            rw [Path.afterRemoval_append, if_pos hij]
            exact get?_pred_eq_none hslot hget
        · exact absurd (Path.isInsideLater_concat hij parent r k) hlater

end Program

/-! ## Where the error is wrong -/

/-- Blocks with conditions around them, so that the path leads to the blocks. -/
def Block.nest : Path → List Block → List Block
  | [], bs => bs
  | i :: p, bs => List.replicate i (.declare []) ++ [.cond "" .eq "" (nest p bs)]

namespace Block

theorem getElem?_nest (i : Nat) (p : Path) (bs : List Block) :
    (nest (i :: p) bs)[i]? = some (.cond "" .eq "" (nest p bs)) := by
  simp [nest]

theorem sequence?_nest (p q : Path) (bs : List Block) : sequence? ⟨nest p bs⟩ (p ++ q) = sequence? ⟨bs⟩ q := by
  induction p with
  | nil => rfl
  | cons i p ih => rw [List.cons_append, Program.sequence?_of_cond (getElem?_nest i p bs), ih]

theorem length_nest (i : Nat) (p : Path) (bs : List Block) : (nest (i :: p) bs).length = i + 1 := by
  simp [nest]

end Block

namespace Program

/-- Conditions along a path, and a declaration behind the block with the index `i` on it: whatever is looked for in the
declaration would be found in that block. -/
def decoy (parent : Path) (i : Nat) (q : Path) : Program :=
  ⟨Block.nest parent (Block.nest (i :: q) [] ++ [.declare []])⟩

section Decoy

variable (parent : Path) (i : Nat) (q : Path)

theorem getElem?_decoy_self :
    (Block.nest (i :: q) [] ++ [.declare []])[i]? = some (.cond "" .eq "" (Block.nest q [])) := by
  rw [List.getElem?_append_left (by rw [Block.length_nest]; omega), Block.getElem?_nest]

theorem getElem?_decoy_succ : (Block.nest (i :: q) [] ++ [.declare []])[i + 1]? = some (.declare []) := by
  rw [List.getElem?_append_right (Nat.le_of_eq (Block.length_nest i q [])), Block.length_nest, Nat.sub_self]
  rfl

theorem sequence?_decoy_self : (decoy parent i q).sequence? (parent ++ i :: q) = some [] := by
  rw [decoy, Block.sequence?_nest, sequence?_of_cond (getElem?_decoy_self i q)]
  have h := Block.sequence?_nest q [] []
  rw [List.append_nil] at h
  exact h

theorem sequence?_decoy_succ : (decoy parent i q).sequence? (parent ++ (i + 1) :: q) = none := by
  rw [decoy, Block.sequence?_nest]
  change (get? _ ((i + 1) :: q)).bind Block.body? = none
  rw [get?_of_getElem? (getElem?_decoy_succ i q)]
  by_cases hq : q = []
  · subst hq
    rfl
  · rw [Block.descend?_of_body?_none rfl hq]
    rfl

theorem exists_get?_decoy {j : Nat} (hj : j ≤ i) : ∃ b, (decoy parent i q).get? (parent ++ [j]) = some b := by
  have hsequence : (decoy parent i q).sequence? parent = some (Block.nest (i :: q) [] ++ [.declare []]) := by
    have h := Block.sequence?_nest parent [] (Block.nest (i :: q) [] ++ [.declare []])
    rw [List.append_nil] at h
    exact h
  have hlength : j < (Block.nest (i :: q) [] ++ [Block.declare []]).length := by
    rw [List.length_append, Block.length_nest]
    omega
  rw [get?_concat, hsequence]
  exact ⟨_, List.getElem?_eq_getElem hlength⟩

end Decoy

variable {t t' : Program} {b : Block} {parent source target q : Path} {i : Nat} {err : TreeError}

/-- Where there is no sequence, this is what a failed insertion tells. -/
theorem insert_fails_of_sequence?_eq_none (h : (insert (parent ++ [i]) b).Fails t err t')
    (hnone : t.sequence? parent = none) : err = .notAContainer parent ∨ err = .invalidPath parent := by
  rw [insert_fails_eq h]
  cases parent with
  | nil => cases hnone
  | cons j parent =>
    change (t.get? (j :: parent)).bind Block.body? = none at hnone
    cases hget : t.get? (j :: parent) with
    | none => exact .inr rfl
    | some c =>
      rw [hget] at hnone
      cases c with
      | cond _ _ _ _ => cases hnone
      | declare _ | assign _ _ | calculate _ _ => exact .inl rfl

/-- Neither error is true of a path with a sequence. -/
theorem not_isTrueOf_of_sequence? {blocks : List Block} (h : t.sequence? (parent ++ i :: q) = some blocks) :
    ¬ TreeError.IsTrueOf t (.notAContainer (parent ++ i :: q)) ∧
      ¬ TreeError.IsTrueOf t (.invalidPath (parent ++ i :: q)) := by
  obtain ⟨j, r, hr⟩ : ∃ j r, parent ++ i :: q = j :: r := List.exists_cons_of_ne_nil (by simp)
  rw [hr] at h ⊢
  obtain ⟨c, hc, hbody⟩ := Option.bind_eq_some_iff.1 h
  constructor
  · rintro ⟨c', hc', hnone⟩
    cases hc.symm.trans hc'
    rw [hbody] at hnone
    cases hnone
  · intro hnone
    cases hc.symm.trans hnone

/-- If the target is inside a later block of the sequence of the source, there is a program of which the error is not
true. -/
theorem exists_not_isTrueOf (h : target.IsInsideLater source) :
    ∃ t err, (move source target).Fails t err t ∧ ¬ err.IsTrueOf t := by
  obtain ⟨parent, i, j, k, r, rfl, rfl, hij⟩ := h
  obtain ⟨m, rfl⟩ : ∃ m, j = m + 1 := ⟨j - 1, by omega⟩
  -- the target is at the index `l` of the sequence at the end of `q`, below the later block
  obtain ⟨q, l, hq⟩ : ∃ q l, k :: r = q ++ [l] :=
    ⟨_, _, (List.dropLast_concat_getLast (List.cons_ne_nil k r)).symm⟩
  have htarget : parent ++ (m + 1) :: k :: r = parent ++ (m + 1) :: q ++ [l] := by rw [hq]; simp
  rw [htarget]
  have hinside : Path.isInside (parent ++ (m + 1) :: q ++ [l]) (parent ++ [i]) = false := by
    rw [List.append_assoc]
    exact Path.isInside_sibling_eq_false parent (Nat.ne_of_lt hij) (q ++ [l])
  obtain ⟨b, hget⟩ := exists_get?_decoy parent m q (Nat.le_of_lt_succ hij)
  rcases (move (parent ++ [i]) (parent ++ (m + 1) :: q ++ [l])).yields_or_fails (decoy parent m q) with
    ⟨_, t', hyields⟩ | ⟨err, t', hfails⟩
  · obtain ⟨-, -, parent', l', blocks, hpath, hblocks, -⟩ := (exists_move_yields_iff _ _ _).1 ⟨t', hyields⟩
    obtain ⟨rfl, -⟩ := List.append_inj' hpath rfl
    rw [sequence?_decoy_succ] at hblocks
    cases hblocks
  · obtain ⟨rfl, -⟩ := move_fails_iff.1 hfails
    refine ⟨decoy parent m q, err, hfails, ?_⟩
    obtain ⟨err', hinsert, rfl⟩ := exists_insert_fails_of_move hfails hget hinside
    have hmoved : Path.afterRemoval (parent ++ (m + 1) :: q) (parent ++ [i]) = parent ++ m :: q := by
      rw [Path.afterRemoval_append, if_pos hij]
      rfl
    obtain ⟨hcontainer, hpath⟩ := not_isTrueOf_of_sequence? (sequence?_decoy_self parent m q)
    rcases insert_fails_of_sequence?_eq_none hinsert (sequence?_decoy_succ parent m q) with rfl | rfl
    · rwa [TreeError.afterRemoval, hmoved]
    · rwa [TreeError.afterRemoval, hmoved]

/-- **A failed move tells what an insertion at the target would have told, with the path moved up as by the removal.** A
move fails exactly if the target is inside the block, which it then tells; if there is no block, and then it tells what
the removal tells; or if nothing can be put at the target. The program is as it was, and what the removal or the
insertion tells is true of it. The error of the move itself is true of every program in which it comes up exactly if the
target is not inside a later block of the sequence of the source. -/
theorem move_fails_readdressed (source target : Path) :
    (∀ t err t', (move source target).Fails t err t' ↔ t' = t ∧
      (target.isInside source = true ∧ err = .intoOwnSubtree source target ∨
        target.isInside source = false ∧ t.get? source = none ∧ (remove source).Fails t err t ∧
          err.AppliesTo t source ∨
        target.isInside source = false ∧ ∃ b err', t.get? source = some b ∧ (insert target b).Fails t err' t ∧
          err'.AppliesTo t target ∧ err = err'.afterRemoval source)) ∧
      (∀ t, (move source target).Fails t (.intoOwnSubtree source target) t ↔ target.isInside source = true) ∧
      ((∀ t err t', (move source target).Fails t err t' → err.IsTrueOf t) ↔ ¬ target.IsInsideLater source) := by
  refine ⟨fun t err t' => move_fails_iff_insert_fails, fun t => move_fails_intoOwnSubtree_iff, ?_⟩
  constructor
  · intro htrue hlater
    obtain ⟨t, err, hfails, hfalse⟩ := exists_not_isTrueOf hlater
    exact hfalse (htrue t err t hfails)
  · intro hlater t err t' hfails
    exact isTrueOf_of_move_fails hfails hlater

/-- Two conditions one behind the other, the second of which is empty. -/
def twins : Program :=
  ⟨[.declare ["a"], .cond "1" .lt "2" [.assign "a" "1", .assign "a" "2"], .cond "1" .lt "2" []]⟩

/-- The declaration does not go into the empty condition, which has the path of the other one without it; but nothing
goes wrong where the target comes before the source, where a condition would go into itself, or where there is no block.
-/
theorem move_fails_readdressed_twins :
    ((move [0] [2, 1]).Fails twins (.invalidPath [1, 1]) twins ∧
        ∃ b err', twins.get? [0] = some b ∧ (insert [2, 1] b).Fails twins err' twins ∧ err'.AppliesTo twins [2, 1] ∧
          .invalidPath [1, 1] = err'.afterRemoval [0]) ∧
      ((move [2] [0, 0]).Fails twins (.notAContainer [0]) twins ∧ TreeError.IsTrueOf twins (.notAContainer [0])) ∧
      (move [1] [1, 0]).Fails twins (.intoOwnSubtree [1] [1, 0]) twins ∧
      (move [1, 2] [0]).Fails twins (.invalidPath [1, 2]) twins := by
  have hdown : (move [0] [2, 1]).Fails twins (.invalidPath [1, 1]) twins := rfl
  have hup : (move [2] [0, 0]).Fails twins (.notAContainer [0]) twins := rfl
  have hremove : (remove [1, 2]).Fails twins (.invalidPath [1, 2]) twins := rfl
  have hlater : ¬ Path.IsInsideLater [0, 0] [2] := by
    rintro ⟨parent, i, j, k, r, hsource, htarget, hij⟩
    cases parent with
    | nil =>
      cases hsource
      cases htarget
      exact Nat.not_lt_zero 2 hij
    | cons l parent => simp at hsource
  refine ⟨⟨hdown, ?_⟩, ⟨hup, (move_fails_readdressed [2] [0, 0]).2.2.2 hlater _ _ _ hup⟩,
    ((move_fails_readdressed [1] [1, 0]).2.1 twins).2 rfl, ?_⟩
  · obtain ⟨-, ⟨hinside, -⟩ | ⟨-, hnone, -⟩ | ⟨-, happlies⟩⟩ := ((move_fails_readdressed [0] [2, 1]).1 _ _ _).1 hdown
    · cases hinside
    · cases hnone
    · exact happlies
  · exact ((move_fails_readdressed [1, 2] [0]).1 _ _ _).2
      ⟨rfl, .inr (.inl ⟨rfl, rfl, hremove, (remove_fails_applies hremove).2⟩)⟩

/-- A condition does not go into the calculation behind it, and is itself said to have no body; and a block that is
there is said not to be. -/
theorem move_blames_container :
    ((move [0] [1, 0]).Fails ⟨[.cond "1" .lt "2" [], .calculate "a" "1"]⟩ (.notAContainer [0])
          ⟨[.cond "1" .lt "2" [], .calculate "a" "1"]⟩ ∧
        ¬ TreeError.IsTrueOf ⟨[.cond "1" .lt "2" [], .calculate "a" "1"]⟩ (.notAContainer [0])) ∧
      (move [0] [2, 1]).Fails twins (.invalidPath [1, 1]) twins ∧ twins.get? [1, 1] = some (.assign "a" "2") := by
  refine ⟨⟨rfl, ?_⟩, rfl, rfl⟩
  rintro ⟨b, hget, hnone⟩
  cases hget
  cases hnone

end Program

end BlockScript
