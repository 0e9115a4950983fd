import BlockScript.Proofs.Addresses
import BlockScript.Proofs.Move

/-!
# What an insertion leaves alone

An insertion moves the blocks behind its place down in their sequence, and puts a new one into the bodies of the
conditions around it. Every block is then found at the path that `Path.afterInsertion` tells
(`Places.get?_afterInsertion`), the conditions around it are what they were but for their bodies (`Places.get?_around`),
and there is nothing new but the block and what is inside it (`Places.exists_of_get?`). Together, **an insertion changes
positions and nothing else** (`insert_displaces`).
-/

namespace BlockScript

open Block (totalOf)
open Program (get? insert)

/-! ## Moved paths -/

namespace Path

/-- Only the index in the sequence of the insertion is changed, and raised by one from the place of the insertion on. -/
theorem afterInsertion_append (parent : Path) (i j : Nat) (q : Path) :
    (parent ++ j :: q).afterInsertion (parent ++ [i]) = parent ++ (if i ≤ j then j + 1 else j) :: q := by
  induction parent with
  | nil => rfl
  | cons k parent ih =>
    obtain ⟨l, p, hp⟩ : ∃ l p, parent ++ [i] = l :: p := List.exists_cons_of_ne_nil (by simp)
    rw [List.cons_append, List.cons_append, List.cons_append, hp, afterInsertion_cons_cons, if_pos rfl, ← hp, ih]

/-- A path that does not come into the sequence of the insertion stays as it is. -/
theorem afterInsertion_of_forall_ne {parent q : Path} (i : Nat) (h : ∀ j r, q ≠ parent ++ j :: r) :
    q.afterInsertion (parent ++ [i]) = q := by
  induction parent generalizing q with
  | nil =>
    cases q with
    | nil => rfl
    | cons j r => exact absurd rfl (h j r)
  | cons k parent ih =>
    obtain ⟨l, p, hp⟩ : ∃ l p, parent ++ [i] = l :: p := List.exists_cons_of_ne_nil (by simp)
    cases q with
    | nil => exact afterInsertion_nil_left _
    | cons j r =>
      rw [List.cons_append, hp, afterInsertion_cons_cons, ← hp]
      by_cases hjk : j = k
      · subst hjk
        rw [if_pos rfl, ih fun j' r' hr => h j' r' (congrArg (List.cons j) hr)]
      · rw [if_neg hjk]

end Path

/-! ## Blocks after an insertion -/

namespace Places

variable {b c : Block} {p q : Path} {bs bs' : List Block}

/-- A block is found where its path has moved to, unless something was put inside it. -/
theorem get?_afterInsertion (h : Places b p bs bs') (hget : get? ⟨bs⟩ q = some c) (hq : p.isInside q = false) :
    get? ⟨bs'⟩ (q.afterInsertion p) = some c := by
  -- taken out before the insertion and put back behind it, the block goes to where its path has moved to
  obtain ⟨bs₀, hplaces⟩ := exists_places_of_get? hget
  obtain ⟨bs₁, -, hback⟩ := hplaces.exchange h hq
  exact hback.get?_eq

/-- A block that something was put inside is a condition, and stays the same condition at the same place. -/
theorem get?_around (h : Places b p bs bs') (hget : get? ⟨bs⟩ q = some c) (hfront : q <+: p) (hne : q ≠ p) :
    ∃ lhs op rhs body body', c = .cond lhs op rhs body ∧ get? ⟨bs'⟩ q = some (.cond lhs op rhs body') := by
  induction h generalizing q with
  | here bs =>
    rcases List.prefix_cons_iff.1 hfront with rfl | ⟨r, rfl, hr⟩
    · cases hget
    · exact absurd (congrArg (List.cons 0) (List.prefix_nil.1 hr)) hne
  | @inside p body body' lhs op rhs bs h ih =>
    rcases List.prefix_cons_iff.1 hfront with rfl | ⟨r, rfl, hr⟩
    · cases hget
    · cases r with
      | nil =>
        cases hget
        exact ⟨lhs, op, rhs, body, body', rfl, rfl⟩
      | cons j r =>
        have hinner := (Program.descend?_cons (.cond lhs op rhs body) j r).symm.trans hget
        obtain ⟨lhs', op', rhs', inner, inner', hc, hget'⟩ := ih hinner hr fun heq => hne (congrArg (List.cons 0) heq)
        exact ⟨lhs', op', rhs', inner, inner', hc, (Program.descend?_cons (.cond lhs op rhs body') j r).trans hget'⟩
  | @later i p bs bs' a h ih =>
    rcases List.prefix_cons_iff.1 hfront with rfl | ⟨r, rfl, hr⟩
    · cases hget
    · have hne' : i :: r ≠ i :: p := fun heq => hne (congrArg (List.cons (i + 1)) (List.cons.inj heq).2)
      exact ih (q := i :: r) hget (List.cons_prefix_cons.2 ⟨rfl, hr⟩) hne'

/-- What is found after an insertion was there before, at the path that has moved there, or came with the insertion. -/
theorem exists_of_get? (h : Places b p bs bs') (hget : get? ⟨bs'⟩ q = some c) :
    p <+: q ∨ ∃ q₀ c₀, get? ⟨bs⟩ q₀ = some c₀ ∧ q = q₀.afterInsertion p := by
  induction h generalizing q with
  | here bs =>
    match q, hget with
    | 0 :: r, _ => exact .inl ⟨r, rfl⟩
    | (k + 1) :: r, hget => exact .inr ⟨k :: r, c, hget, rfl⟩
  | @inside p body body' lhs op rhs bs h ih =>
    obtain ⟨i, p, rfl⟩ := h.exists_cons
    match q, hget with
    | [0], _ => exact .inr ⟨[0], _, rfl, congrArg (List.cons 0) (Path.afterInsertion_nil_left (i :: p)).symm⟩
    | 0 :: j :: r, hget =>
      have hinner := (Program.descend?_cons (.cond lhs op rhs body') j r).symm.trans hget
      rcases ih hinner with hfront | ⟨q₀, c₀, hget₀, hq₀⟩
      · exact .inl (List.cons_prefix_cons.2 ⟨rfl, hfront⟩)
      · cases q₀ with
        | nil => cases hget₀
        | cons k s =>
          have houter := (Program.descend?_cons (.cond lhs op rhs body) k s).trans hget₀
          exact .inr ⟨0 :: k :: s, c₀, houter, congrArg (List.cons 0) hq₀⟩
    | (k + 1) :: r, hget => exact .inr ⟨(k + 1) :: r, c, hget, rfl⟩
  | @later i p bs bs' a h ih =>
    match q, hget with
    | 0 :: r, hget => exact .inr ⟨0 :: r, c, hget, (Path.afterInsertion_zero_succ r i p).symm⟩
    | (k + 1) :: r, hget =>
      rcases ih (q := k :: r) hget with hfront | ⟨q₀, c₀, hget₀, hq₀⟩
      · obtain ⟨rfl, hrest⟩ := List.cons_prefix_cons.1 hfront
        exact .inl (List.cons_prefix_cons.2 ⟨rfl, hrest⟩)
      · cases q₀ with
        | nil => cases hget₀
        | cons j s =>
          obtain ⟨l, u, hl, hl'⟩ := Path.afterInsertion_succ j i s p
          obtain ⟨rfl, rfl⟩ := List.cons.inj (hq₀.trans hl)
          exact .inr ⟨(j + 1) :: s, c₀, hget₀, hl'.symm⟩

theorem totalOf_eq (h : Places b p bs bs') : totalOf bs' = totalOf bs + b.total := by
  have hlength := h.perm_bares.length_eq
  rw [List.length_append, Block.length_bares, Block.length_bares, Block.length_bares, totalOf, totalOf] at hlength
  omega

end Places

namespace Program

/-- **An insertion changes positions and nothing else.** The block is at the path. A condition that the path leads into
is the same condition, at the same place, with another body; every other block is what it was, at the path that
`Path.afterInsertion` tells. No path leads to anything else but the new block and what is inside it, and there are as
many more blocks as it brings. -/
theorem insert_displaces (t t' : Program) (p : Path) (b : Block) (h : (insert p b).Yields t () t') :
    t'.get? p = some b ∧
      (∀ q c, t.get? q = some c → q <+: p → q ≠ p →
        ∃ lhs op rhs body body', c = .cond lhs op rhs body ∧ t'.get? q = some (.cond lhs op rhs body')) ∧
      (∀ q c, t.get? q = some c → ¬ (q <+: p ∧ q ≠ p) → t'.get? (q.afterInsertion p) = some c) ∧
      (∀ (parent : Path) i, p = parent ++ [i] →
        (∀ j r, Path.afterInsertion (parent ++ j :: r) p = parent ++ (if i ≤ j then j + 1 else j) :: r) ∧
        ∀ q : Path, (∀ j r, q ≠ parent ++ j :: r) → q.afterInsertion p = q) ∧
      (∀ q' c', t'.get? q' = some c' → p <+: q' ∨ ∃ q c, t.get? q = some c ∧ q' = q.afterInsertion p) ∧
      t'.count = t.count + 1 + totalOf b.children := by
  have hplaces := insert_yields_iff.1 h
  refine ⟨hplaces.get?_eq, fun q c => hplaces.get?_around, fun q c hget hq => ?_, ?_,
    fun q' c' => hplaces.exists_of_get?, ?_⟩
  · exact hplaces.get?_afterInsertion hget (Bool.eq_false_iff.2 fun hinside => hq (Path.isInside_iff.1 hinside))
  · rintro parent i rfl
    exact ⟨Path.afterInsertion_append parent i, fun q => Path.afterInsertion_of_forall_ne i⟩
  · rw [count_eq_totalOf, count_eq_totalOf, hplaces.totalOf_eq, Block.total_eq, Nat.add_assoc, Nat.add_comm 1]

/-- The program `shelf` with one more condition, which has a block inside, before its inner one. -/
def shelfWithShare : Program :=
  ⟨[.declare ["x"], .assign "x" "1", .cond "x" .gt "0"
    [.calculate "x" "x + 1", .cond "x" .eq "2" [.declare ["y"]], .cond "x" .lt "9" []]]⟩

theorem insert_displaces_shelf :
    (insert [2, 1] (.cond "x" .eq "2" [.declare ["y"]])).Yields shelf () shelfWithShare ∧
      shelfWithShare.get? [2, 2] = some (.cond "x" .lt "9" []) ∧
      (∃ body, shelfWithShare.get? [2] = some (.cond "x" .gt "0" body)) ∧
      shelfWithShare.count = shelf.count + 2 := by
  have h : (insert [2, 1] (.cond "x" .eq "2" [.declare ["y"]])).Yields shelf () shelfWithShare := rfl
  obtain ⟨-, haround, hmoved, -, -, hcount⟩ := insert_displaces shelf shelfWithShare [2, 1] _ h
  obtain ⟨_, _, _, _, body, hc, hget⟩ := haround [2] _ rfl (by decide) (by decide)
  cases hc
  exact ⟨h, hmoved [2, 1] _ rfl fun hfront => hfront.2 rfl, ⟨body, hget⟩, hcount⟩

end Program

end BlockScript
