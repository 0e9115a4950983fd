import BlockScript.Proofs.Preorder

/-!
# Putting a block at a place

`Places b p bs bs'` says that `bs'` is `bs` with the block `b` put at the path `p`, so that taking the block at `p` out
of `bs'` leaves `bs`. Insertion and removal are the two readings of this one relation.

The main facts are about two placements. If `b` is placed at `p` and something else is then placed at `q`, the second
placement can be made first, at `q` as it is before `b` is there (`Path.afterRemoval`), and `b` is then placed at `p` as
it is after the second one (`Path.afterInsertion`). **The two orders give the same blocks** (`Places.exchange`, and the
converse `Places.join`).
-/

namespace BlockScript

open Block (preorderFrom preorderFrom_cons preorderFrom_nil)

/-! ## Paths after an insertion -/

/-- Where the place `p` is found once a block has been put at `inserted`: the blocks from that place on have moved down
in their sequence, with all that is inside them. -/
def Path.afterInsertion : (p inserted : Path) → Path
  | i :: p, [j] => (if j ≤ i then i + 1 else i) :: p
  | i :: p, j :: inserted => if i = j then i :: afterInsertion p inserted else i :: p
  | p, _ => p

namespace Path

theorem afterRemoval_cons_cons (i j k : Nat) (p removed : Path) :
    afterRemoval (i :: p) (j :: k :: removed) =
      if i = j then i :: afterRemoval p (k :: removed) else i :: p := rfl

theorem afterInsertion_cons_cons (i j k : Nat) (p inserted : Path) :
    afterInsertion (i :: p) (j :: k :: inserted) =
      if i = j then i :: afterInsertion p (k :: inserted) else i :: p := rfl

/-- One more block in front of all changes nothing but the first index. -/
theorem afterRemoval_succ (i j : Nat) (p removed : Path) :
    ∃ k q, afterRemoval (i :: p) (j :: removed) = k :: q ∧
      afterRemoval ((i + 1) :: p) ((j + 1) :: removed) = (k + 1) :: q := by
  cases removed with
  | nil =>
    refine ⟨if j < i then i - 1 else i, p, rfl, ?_⟩
    change (if j + 1 < i + 1 then i + 1 - 1 else i + 1) :: p = _
    congr 1
    split <;> split <;> omega
  | cons l removed =>
    rw [afterRemoval_cons_cons, afterRemoval_cons_cons]
    by_cases h : i = j
    · rw [if_pos h, if_pos (congrArg (· + 1) h)]
      exact ⟨i, _, rfl, rfl⟩
    · rw [if_neg h, if_neg (by omega)]
      exact ⟨i, p, rfl, rfl⟩

theorem afterInsertion_succ (i j : Nat) (p inserted : Path) :
    ∃ k q, afterInsertion (i :: p) (j :: inserted) = k :: q ∧
      afterInsertion ((i + 1) :: p) ((j + 1) :: inserted) = (k + 1) :: q := by
  cases inserted with
  | nil =>
    refine ⟨if j ≤ i then i + 1 else i, p, rfl, ?_⟩
    change (if j + 1 ≤ i + 1 then i + 1 + 1 else i + 1) :: p = _
    congr 1
    split <;> split <;> omega
  | cons l inserted =>
    rw [afterInsertion_cons_cons, afterInsertion_cons_cons]
    by_cases h : i = j
    · rw [if_pos h, if_pos (congrArg (· + 1) h)]
      exact ⟨i, _, rfl, rfl⟩
    · rw [if_neg h, if_neg (by omega)]
      exact ⟨i, p, rfl, rfl⟩

theorem afterInsertion_nil_left (p : Path) : afterInsertion [] p = [] := by
  match p with
  | [] | [_] | _ :: _ :: _ => rfl

/-- What is inside the first block stays in place when something is put behind it. -/
theorem afterInsertion_zero_succ (q : Path) (i : Nat) (p : Path) :
    afterInsertion (0 :: q) ((i + 1) :: p) = 0 :: q := by
  cases p with
  | nil => rfl
  | cons j p => rfl

theorem isInside_cons (i : Nat) (p q : Path) : isInside (i :: p) (i :: q) = isInside p q := by
  simp [isInside]

theorem isInside_succ (i j : Nat) (p q : Path) :
    isInside ((i + 1) :: p) ((j + 1) :: q) = isInside (i :: p) (j :: q) := by
  rw [Bool.eq_iff_iff, isInside_iff, isInside_iff]
  simp

theorem isInside_singleton (i j : Nat) (p : Path) : isInside (i :: j :: p) [i] = true := by
  simp [isInside]

end Path

/-! ## Placements -/

/-- `bs'` is `bs` with the block `b` put at a path. -/
inductive Places (b : Block) : Path → List Block → List Block → Prop where
  | here (bs : List Block) : Places b [0] bs (b :: bs)
  | inside {p : Path} {body body' : List Block} (lhs : String) (op : Comparison) (rhs : String) (bs : List Block)
      (h : Places b p body body') : Places b (0 :: p) (.cond lhs op rhs body :: bs) (.cond lhs op rhs body' :: bs)
  | later {i : Nat} {p : Path} {bs bs' : List Block} (a : Block) (h : Places b (i :: p) bs bs') :
      Places b ((i + 1) :: p) (a :: bs) (a :: bs')

namespace Places

variable {b c : Block} {p q : Path} {i : Nat} {bs bs' bs₁ bs₂ : List Block}

theorem not_nil : ¬ Places b [] bs bs' := nofun

theorem exists_cons (h : Places b p bs bs') : ∃ i q, p = i :: q := by
  cases h with
  | here => exact ⟨0, [], rfl⟩
  | inside => exact ⟨0, _, rfl⟩
  | later => exact ⟨_, _, rfl⟩

/-! ### Two placements -/

/-- A placement behind another one, and not inside it, can be made before it. -/
theorem exchange (h₁ : Places b p bs bs₁) (h₂ : Places c q bs₁ bs₂) (hq : q.isInside p = false) :
    ∃ bs', Places c (q.afterRemoval p) bs bs' ∧ Places b (p.afterInsertion q) bs' bs₂ := by
  induction h₁ generalizing q bs₂ with
  | here bs =>
    cases h₂ with
    | here => exact ⟨c :: bs, .here bs, .later c (.here bs)⟩
    | inside _ _ _ _ h =>
      obtain ⟨j, q, rfl⟩ := h.exists_cons
      rw [Path.isInside_singleton] at hq
      cases hq
    | later _ h => exact ⟨_, h, by cases ‹Path› <;> exact .here _⟩
  | @inside p body₀ body lhs op rhs bs h ih =>
    obtain ⟨i, p, rfl⟩ := h.exists_cons
    cases h₂ with
    | here => exact ⟨_, .here _, .later c (.inside lhs op rhs bs h)⟩
    | inside _ _ _ _ h' =>
      obtain ⟨j, q, rfl⟩ := h'.exists_cons
      obtain ⟨body', hc, hb⟩ := ih h' (by rwa [Path.isInside_cons] at hq)
      exact ⟨_, .inside lhs op rhs bs hc, .inside lhs op rhs bs hb⟩
    | @later k q _ bs' _ h' => exact ⟨_, .later _ h', by cases q <;> exact .inside lhs op rhs bs' h⟩
  | @later i p bs bs' a h ih =>
    cases h₂ with
    | here => exact ⟨_, by cases p <;> exact .here _, .later c (.later a h)⟩
    | inside lhs op rhs _ h' =>
      obtain ⟨j, q, rfl⟩ := h'.exists_cons
      exact ⟨_, by cases p <;> exact .inside lhs op rhs bs h', .later _ h⟩
    | @later k q _ bs₂ _ h' =>
      obtain ⟨bs', hc, hb⟩ := ih h' (by rwa [Path.isInside_succ] at hq)
      obtain ⟨k', q', hk, hk'⟩ := Path.afterRemoval_succ k i q p
      obtain ⟨i', p', hi, hi'⟩ := Path.afterInsertion_succ i k p q
      rw [hk] at hc
      rw [hi] at hb
      rw [hk', hi']
      exact ⟨a :: bs', .later a hc, .later a hb⟩

/-- Two placements in the same blocks can be made one behind the other, if the first is not inside the second. -/
theorem join (h₁ : Places b p bs bs₁) (h₂ : Places c (q.afterRemoval p) bs bs') (hq : q.isInside p = false) :
    ∃ bs₂, Places c q bs₁ bs₂ ∧ Places b (p.afterInsertion q) bs' bs₂ := by
  induction h₁ generalizing q bs' with
  | here bs =>
    match q, hq with
    | [], _ => exact absurd h₂ not_nil
    | [0], _ =>
      cases h₂ with
      | here => exact ⟨_, .here _, .later c (.here bs)⟩
      | inside _ _ _ _ h => exact absurd h not_nil
    | 0 :: j :: q, hq =>
      rw [Path.isInside_singleton] at hq
      cases hq
    | (k + 1) :: q, _ => exact ⟨_, .later b h₂, by cases q <;> exact .here _⟩
  | @inside p body₀ body lhs op rhs bs h ih =>
    obtain ⟨i, p, rfl⟩ := h.exists_cons
    match q, hq with
    | [], _ => exact absurd h₂ not_nil
    | [0], _ =>
      cases h₂ with
      | here => exact ⟨_, .here _, .later c (.inside lhs op rhs bs h)⟩
      | inside _ _ _ _ h => exact absurd h not_nil
    | 0 :: j :: q, hq =>
      rw [Path.isInside_cons] at hq
      obtain ⟨k, r, hk, -⟩ := Path.afterRemoval_succ j i q p
      rw [Path.afterRemoval_cons_cons, if_pos rfl, hk] at h₂
      cases h₂ with
      | inside _ _ _ _ h' =>
        rw [← hk] at h'
        obtain ⟨body', hc, hb⟩ := ih h' hq
        exact ⟨_, .inside lhs op rhs bs hc, .inside lhs op rhs bs hb⟩
    | (k + 1) :: q, _ =>
      cases h₂ with
      | later _ h' => exact ⟨_, .later _ h', by cases q <;> exact .inside lhs op rhs _ h⟩
  | @later i p bs bs₁ a h ih =>
    match q, hq with
    | [], _ => exact absurd h₂ not_nil
    | [0], _ =>
      have hfirst : Path.afterRemoval [0] ((i + 1) :: p) = [0] := by cases p <;> rfl
      rw [hfirst] at h₂
      cases h₂ with
      | here => exact ⟨_, .here _, .later c (.later a h)⟩
      | inside _ _ _ _ h => exact absurd h not_nil
    | 0 :: j :: q, _ =>
      have hfirst : Path.afterRemoval (0 :: j :: q) ((i + 1) :: p) = 0 :: j :: q := by cases p <;> rfl
      rw [hfirst] at h₂
      cases h₂ with
      | inside lhs op rhs _ h' => exact ⟨_, .inside lhs op rhs bs₁ h', .later _ h⟩
    | (k + 1) :: q, hq =>
      obtain ⟨k', q', hk, hk'⟩ := Path.afterRemoval_succ k i q p
      obtain ⟨i', p', hi, hi'⟩ := Path.afterInsertion_succ i k p q
      rw [hk'] at h₂
      cases h₂ with
      | later _ h' =>
        rw [← hk] at h'
        obtain ⟨bs₂, hc, hb⟩ := ih h' (by rwa [Path.isInside_succ] at hq)
        rw [hi] at hb
        rw [hi']
        exact ⟨a :: bs₂, .later a hc, .later a hb⟩

end Places

/-! ## Where blocks are -/

namespace Program

/-- The blocks of the sequence at a path: the program's own, or the body of a condition. -/
def sequence? (t : Program) : Path → Option (List Block)
  | [] => some t.blocks
  | p => do
    let b ← t.get? p
    b.body?

/-- A block can be put at the path: it ends in a sequence, at one of its blocks or at its end. -/
def HasSlot (t : Program) (p : Path) : Prop :=
  ∃ parent i blocks, p = parent ++ [i] ∧ t.sequence? parent = some blocks ∧ i ≤ blocks.length

theorem descend?_cons (b : Block) (i : Nat) (p : Path) : b.descend? (i :: p) = get? ⟨b.children⟩ (i :: p) := by
  cases b <;> rfl

section Conditions

variable {bs body : List Block} {c : Block} {i : Nat} {lhs rhs : String} {op : Comparison}

theorem get?_of_getElem? (h : bs[i]? = some c) (q : Path) : get? ⟨bs⟩ (i :: q) = c.descend? q := by
  change (bs[i]?.bind fun b => b.descend? q) = _
  rw [h]
  rfl

theorem get?_of_getElem?_none (h : bs[i]? = none) (q : Path) : get? ⟨bs⟩ (i :: q) = none := by
  change (bs[i]?.bind fun b => b.descend? q) = none
  rw [h]
  rfl

theorem get?_of_cond (h : bs[i]? = some (.cond lhs op rhs body)) {q : Path} (hq : q ≠ []) :
    get? ⟨bs⟩ (i :: q) = get? ⟨body⟩ q := by
  obtain ⟨j, r, rfl⟩ := List.exists_cons_of_ne_nil hq
  exact (get?_of_getElem? h (j :: r)).trans (descend?_cons (.cond lhs op rhs body) j r)

theorem sequence?_of_cond (h : bs[i]? = some (.cond lhs op rhs body)) (q : Path) :
    sequence? ⟨bs⟩ (i :: q) = sequence? ⟨body⟩ q := by
  change (get? ⟨bs⟩ (i :: q)).bind Block.body? = _
  cases q with
  | nil =>
    rw [get?_of_getElem? h]
    rfl
  | cons j q =>
    rw [get?_of_cond h (List.cons_ne_nil j q)]
    rfl

end Conditions

theorem sequence?_cond (lhs : String) (op : Comparison) (rhs : String) (body bs : List Block) (p : Path) :
    sequence? ⟨.cond lhs op rhs body :: bs⟩ (0 :: p) = sequence? ⟨body⟩ p := sequence?_of_cond rfl p

/-- Only a condition has a sequence inside. -/
theorem exists_cond_of_sequence? {a : Block} {bs blocks : List Block} {p : Path}
    (h : sequence? ⟨a :: bs⟩ (0 :: p) = some blocks) : ∃ lhs op rhs body, a = .cond lhs op rhs body := by
  cases a with
  | cond lhs op rhs body => exact ⟨lhs, op, rhs, body, rfl⟩
  | declare _ | assign _ _ | calculate _ _ => cases p <;> cases h

end Program

open Program (get? sequence? HasSlot)

variable {b : Block} {p : Path} {bs bs' : List Block}

theorem Places.get?_eq (h : Places b p bs bs') : get? ⟨bs'⟩ p = some b := by
  induction h with
  | here bs => rfl
  | @inside p body body' lhs op rhs bs h ih =>
    obtain ⟨i, p, rfl⟩ := h.exists_cons
    exact (Program.descend?_cons (.cond lhs op rhs body') i p).trans ih
  | later a h ih => exact ih

theorem exists_places_of_get? (h : get? ⟨bs'⟩ p = some b) : ∃ bs, Places b p bs bs' := by
  induction bs' using Block.sequence_induction generalizing p with
  | nil => cases p <;> cases h
  | cons a bs' ihchildren ihbs =>
    match p, h with
    | [0], h =>
      cases h
      exact ⟨bs', .here bs'⟩
    | 0 :: i :: p, h =>
      have hchildren : get? ⟨a.children⟩ (i :: p) = some b := (Program.descend?_cons a i p).symm.trans h
      obtain ⟨body, hbody⟩ := ihchildren hchildren
      cases a with
      | cond lhs op rhs body' => exact ⟨_, .inside lhs op rhs bs' hbody⟩
      | declare _ | assign _ _ | calculate _ _ => cases hchildren
    | (i + 1) :: p, h =>
      obtain ⟨bs, hbs⟩ := ihbs (p := i :: p) h
      exact ⟨_, .later a hbs⟩

theorem Places.hasSlot (h : Places b p bs bs') : HasSlot ⟨bs⟩ p := by
  induction h with
  | here bs => exact ⟨[], 0, bs, rfl, rfl, Nat.zero_le _⟩
  | inside lhs op rhs bs h ih =>
    obtain ⟨parent, i, blocks, rfl, hblocks, hi⟩ := ih
    exact ⟨0 :: parent, i, blocks, rfl, (Program.sequence?_cond lhs op rhs _ bs parent).trans hblocks, hi⟩
  | @later j q bs bs' a h ih =>
    obtain ⟨parent, i, blocks, hq, hblocks, hi⟩ := ih
    cases parent with
    | nil =>
      cases hq
      cases hblocks
      exact ⟨[], j + 1, a :: bs, rfl, rfl, Nat.succ_le_succ hi⟩
    | cons k parent =>
      cases hq
      exact ⟨(j + 1) :: parent, i, blocks, rfl, hblocks, hi⟩

theorem exists_places_of_hasSlot (b : Block) (h : HasSlot ⟨bs⟩ p) : ∃ bs', Places b p bs bs' := by
  obtain ⟨parent, i, blocks, rfl, hblocks, hi⟩ := h
  induction bs using Block.sequence_induction generalizing parent i blocks with
  | nil =>
    cases parent with
    | nil =>
      cases hblocks
      obtain rfl : i = 0 := Nat.le_zero.1 hi
      exact ⟨_, .here []⟩
    | cons j parent => cases hblocks
  | cons a bs ihchildren ihbs =>
    match parent, i, hblocks, hi with
    | [], 0, _, _ => exact ⟨_, .here _⟩
    | [], i + 1, hblocks, hi =>
      cases hblocks
      obtain ⟨bs', h⟩ := ihbs [] i bs rfl (Nat.le_of_succ_le_succ hi)
      exact ⟨_, .later a h⟩
    | 0 :: parent, i, hblocks, hi =>
      obtain ⟨lhs, op, rhs, body, rfl⟩ := Program.exists_cond_of_sequence? hblocks
      rw [Program.sequence?_cond] at hblocks
      obtain ⟨body', h⟩ := ihchildren parent i blocks hblocks hi
      exact ⟨_, .inside lhs op rhs bs h⟩
    | (j + 1) :: parent, i, hblocks, hi =>
      obtain ⟨bs', h⟩ := ihbs (j :: parent) i blocks hblocks hi
      exact ⟨_, .later a h⟩

/-! ## Nothing gets lost -/

/-- A block without what is inside it. -/
def Block.bare : Block → Block
  | cond lhs op rhs _ => .cond lhs op rhs []
  | b => b

/-- All blocks of a sequence at all levels, each without what is inside it. -/
def Block.bares (bs : List Block) : List Block := (preorderFrom [] 0 bs).map fun v => v.2.bare

namespace Block

/-- What is inside a block does not depend on where the block is. -/
theorem map_bare_preorderFrom (p q : Path) (i j : Nat) (bs : List Block) :
    ((preorderFrom p i bs).map fun v => v.2.bare) = (preorderFrom q j bs).map fun v => v.2.bare := by
  induction bs using sequence_induction generalizing p q i j with
  | nil => rw [preorderFrom_nil, preorderFrom_nil]
  | cons b bs ihchildren ihbs =>
    rw [preorderFrom_cons, preorderFrom_cons, List.map_cons, List.map_cons, List.map_append, List.map_append,
      ihchildren (p ++ [i]) (q ++ [j]) 0 0, ihbs p q (i + 1) (j + 1)]

theorem bares_cons (b : Block) (bs : List Block) : bares (b :: bs) = b.bare :: (bares b.children ++ bares bs) := by
  rw [bares, preorderFrom_cons, List.map_cons, List.map_append, map_bare_preorderFrom _ [] 0 0,
    map_bare_preorderFrom [] [] (0 + 1) 0]
  rfl

end Block

open Block (bares bares_cons)

/-- **A placement adds the block and all that is inside it to what was there, and nothing else.** -/
theorem Places.perm_bares (h : Places b p bs bs') : (bares bs').Perm (bares [b] ++ bares bs) := by
  induction h with
  | here bs =>
    rw [bares_cons, bares_cons]
    simp [bares, preorderFrom_nil]
  | @inside p body body' lhs op rhs bs h ih =>
    rw [bares_cons, bares_cons (.cond lhs op rhs body)]
    change (Block.cond lhs op rhs [] :: (bares body' ++ bares bs)).Perm
      (bares [b] ++ Block.cond lhs op rhs [] :: (bares body ++ bares bs))
    refine ((ih.append_right (bares bs)).cons _).trans ?_
    rw [List.append_assoc]
    exact List.perm_middle.symm
  | @later i p bs bs' a h ih =>
    rw [bares_cons, bares_cons a]
    refine ((ih.append_left (bares a.children)).cons a.bare).trans ?_
    have hmiddle : (bares a.children ++ (bares [b] ++ bares bs)).Perm
        (bares [b] ++ (bares a.children ++ bares bs)) := by
      rw [← List.append_assoc, ← List.append_assoc]
      exact List.perm_append_comm.append_right _
    exact (hmiddle.cons a.bare).trans List.perm_middle.symm

end BlockScript
