import BlockScript.Program.Walk

/-!
# The walk as a recursion on the tree

A walk steps through a stack of sequences. `Block.preorderFrom` lists the same visits by recursion on the blocks, and
**a walk makes the visits of the innermost sequence and then those of the walk around it** (`Walk.visits_cons`), so that
`Program.walk` is the preorder of the program (`walk_eq_preorderFrom`).

From the recursion follows where the visits lead: the paths of a sequence go on from the path of the sequence
(`exists_of_mem_preorderFrom`) and grow strictly in lexicographic order (`pairwise_preorderFrom`).
-/

namespace BlockScript

namespace Block

/-- The blocks directly inside a block. -/
def children (b : Block) : List Block := b.body?.getD []

/-- What holds of the empty sequence, and of a sequence if it holds of the children of the first block and of the blocks
behind it, holds of every sequence. -/
@[elab_as_elim]
theorem sequence_induction {P : List Block → Prop} (nil : P [])
    (cons : ∀ b bs, P b.children → P bs → P (b :: bs)) : ∀ bs, P bs
  | [] => nil
  | .declare _ :: bs => cons _ bs nil (sequence_induction nil cons bs)
  | .assign _ _ :: bs => cons _ bs nil (sequence_induction nil cons bs)
  | .calculate _ _ :: bs => cons _ bs nil (sequence_induction nil cons bs)
  | .cond _ _ _ body :: bs => cons _ bs (sequence_induction nil cons body) (sequence_induction nil cons bs)

mutual

/-- A block at the path `p` and all blocks inside it, each before those inside it. -/
def preorder (p : Path) : Block → List (Path × Block)
  | .cond lhs op rhs body => (p, .cond lhs op rhs body) :: preorderFrom p 0 body
  | b => [(p, b)]

/-- All blocks of the sequence at the path `p` from the index `i` on. -/
def preorderFrom (p : Path) (i : Nat) : List Block → List (Path × Block)
  | [] => []
  | b :: bs => b.preorder (p ++ [i]) ++ preorderFrom p (i + 1) bs

end

@[simp]
theorem preorderFrom_nil (p : Path) (i : Nat) : preorderFrom p i [] = [] := by
  rw [preorderFrom]

theorem preorder_eq (p : Path) (b : Block) : b.preorder p = (p, b) :: preorderFrom p 0 b.children := by
  cases b with
  | cond lhs op rhs body => rw [preorder]; rfl
  | declare _ | assign _ _ | calculate _ _ => simp [preorder, children, body?]

theorem preorderFrom_cons (p : Path) (i : Nat) (b : Block) (bs : List Block) :
    preorderFrom p i (b :: bs) =
      (p ++ [i], b) :: (preorderFrom (p ++ [i]) 0 b.children ++ preorderFrom p (i + 1) bs) := by
  rw [preorderFrom, preorder_eq, List.cons_append]

end Block

open Block (preorderFrom preorderFrom_cons)

/-! ## The walk -/

namespace Walk

theorem visits_eq (w : Walk) : w.visits = match w.next? with
    | none => []
    | some (visit, w') => visit :: w'.visits := by
  rw [visits]
  split <;> rename_i h <;> rw [h]

theorem visits_nil : visits [] = [] := by
  rw [visits_eq]
  rfl

theorem visits_of_next? {w w' : Walk} {visit : Path × Block} (h : w.next? = some (visit, w')) :
    w.visits = visit :: w'.visits := by
  rw [visits_eq, h]

theorem visits_finished (n : Nat) (w : Walk) : visits (⟨n, []⟩ :: w) = w.visits := by
  rw [visits_eq, visits_eq w]
  rfl

theorem path_cons (n : Nat) (ahead : List Block) (w : Walk) : path (⟨n + 1, ahead⟩ :: w) = w.path ++ [n] := by
  simp [path]

theorem visits_enter (w : Walk) (b : Block) : (w.enter b).visits = visits (⟨0, b.children⟩ :: w) := by
  cases b with
  | cond lhs op rhs body => rfl
  | declare _ | assign _ _ | calculate _ _ => exact (visits_finished 0 w).symm

/-- **A walk visits what is ahead in the innermost sequence, and then goes on as the walk around it.** -/
theorem visits_cons (n : Nat) (ahead : List Block) (w : Walk) :
    visits (⟨n, ahead⟩ :: w) = preorderFrom w.path n ahead ++ w.visits := by
  induction ahead using Block.sequence_induction generalizing n w with
  | nil => rw [visits_finished, Block.preorderFrom_nil, List.nil_append]
  | cons b bs ihchildren ihbs =>
    have hnext : next? (⟨n, b :: bs⟩ :: w) = some ((w.path ++ [n], b), enter (⟨n + 1, bs⟩ :: w) b) := by
      rw [← path_cons n bs w]
      rfl
    rw [visits_of_next? hnext, visits_enter, ihchildren, path_cons, ihbs, preorderFrom_cons, List.cons_append,
      List.append_assoc]

end Walk

theorem Program.walk_eq_preorderFrom (t : Program) : t.walk = preorderFrom [] 0 t.blocks := by
  rw [walk, Walk.start, Walk.visits_cons, Walk.visits_nil, List.append_nil]
  rfl

/-! ## The order of paths -/

namespace Block

/-- The paths of a sequence go on from the path of the sequence, with an index that has not been passed. -/
theorem exists_of_mem_preorderFrom {p : Path} {i : Nat} {bs : List Block} {visit : Path × Block}
    (h : visit ∈ preorderFrom p i bs) : ∃ j r, i ≤ j ∧ visit.1 = p ++ j :: r := by
  induction bs using sequence_induction generalizing p i with
  | nil => rw [preorderFrom_nil] at h; cases h
  | cons b bs ihchildren ihbs =>
    rw [preorderFrom_cons, List.mem_cons, List.mem_append] at h
    rcases h with rfl | h | h
    · exact ⟨i, [], Nat.le_refl i, rfl⟩
    · obtain ⟨j, r, -, hr⟩ := ihchildren h
      exact ⟨i, j :: r, Nat.le_refl i, by rw [hr, List.append_assoc]; rfl⟩
    · obtain ⟨j, r, hj, hr⟩ := ihbs h
      exact ⟨j, r, Nat.le_of_succ_le hj, hr⟩

end Block

namespace Path

/-- `p` comes before `q` in lexicographic order: a place comes before the places inside it, and those before the places
of its later siblings. -/
def Before (p q : Path) : Prop := List.Lex (· < ·) p q

theorem Before.append_left {q r : Path} (p : Path) (h : Before q r) : Before (p ++ q) (p ++ r) := by
  induction p with
  | nil => exact h
  | cons i p ih => exact List.Lex.cons ih

theorem Before.ne {p q : Path} (h : Before p q) : p ≠ q := by
  rintro rfl
  induction p with
  | nil => cases h
  | cons i p ih =>
    cases h with
    | rel hi => exact Nat.lt_irrefl i hi
    | cons hp => exact ih hp

theorem isInside_iff {p q : Path} : p.isInside q = true ↔ q <+: p ∧ q ≠ p := by
  rw [isInside, Bool.and_eq_true, decide_eq_true_iff, List.isPrefixOf_iff_prefix]
  constructor
  · rintro ⟨hlength, hfront⟩
    exact ⟨hfront, fun h => absurd (congrArg List.length h) (Nat.ne_of_lt hlength)⟩
  · rintro ⟨hfront, hne⟩
    exact ⟨Nat.lt_of_le_of_ne hfront.length_le fun h => hne (hfront.eq_of_length h), hfront⟩

end Path

/-- The paths of a sequence grow strictly. -/
theorem Block.pairwise_preorderFrom (p : Path) (i : Nat) (bs : List Block) :
    ((preorderFrom p i bs).map Prod.fst).Pairwise Path.Before := by
  induction bs using sequence_induction generalizing p i with
  | nil => rw [preorderFrom_nil]; exact List.Pairwise.nil
  | cons b bs ihchildren ihbs =>
    have hinside : ∀ v ∈ preorderFrom (p ++ [i]) 0 b.children, ∃ r, v.1 = p ++ i :: r ∧ r ≠ [] := by
      intro v hv
      obtain ⟨j, r, -, hr⟩ := exists_of_mem_preorderFrom hv
      exact ⟨j :: r, by rw [hr, List.append_assoc]; rfl, nofun⟩
    have hlater : ∀ v ∈ preorderFrom p (i + 1) bs, ∀ r, Path.Before (p ++ i :: r) v.1 := by
      intro v hv r
      obtain ⟨j, r', hj, hr'⟩ := exists_of_mem_preorderFrom hv
      rw [hr']
      exact Path.Before.append_left p (List.Lex.rel hj)
    rw [preorderFrom_cons, List.map_cons, List.map_append, List.pairwise_cons, List.pairwise_append]
    simp only [List.mem_append, List.mem_map]
    refine ⟨?_, ihchildren (p ++ [i]) 0, ihbs p (i + 1), ?_⟩
    · rintro q (⟨v, hv, rfl⟩ | ⟨v, hv, rfl⟩)
      · obtain ⟨r, hr, hne⟩ := hinside v hv
        rw [hr]
        obtain ⟨j, r, rfl⟩ := List.exists_cons_of_ne_nil hne
        exact Path.Before.append_left p (List.Lex.cons List.Lex.nil)
      · exact hlater v hv []
    · rintro q ⟨v, hv, rfl⟩ q' ⟨v', hv', rfl⟩
      obtain ⟨r, hr, -⟩ := hinside v hv
      rw [hr]
      exact hlater v' hv' r

end BlockScript
