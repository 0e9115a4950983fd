import BlockScript.Proofs.Placement

/-!
# The walk lists all addresses

A path is the address of a block if `get?` finds one there. **The walk visits each address once, in the order of paths,
with the block that is there** (`walk_lists_addresses`). What it visits is known from the preorder, which goes down the
tree as `get?` does (`mem_preorderFrom_iff`), and how many visits there are (`length_preorderFrom`).

Paths are counted from the sequences that a walk is in, each of which says how many of its blocks have been visited. The
path takes one off each of these numbers. When a path is formed, none of them is zero: a walk goes into a body only from
a block that it has visited (`Underway`).
-/

namespace BlockScript

open Block (preorderFrom preorderFrom_cons preorderFrom_nil totalOf)
open Program (get?)

/-! ## Visits and addresses -/

/-- The visits of a sequence are the blocks that paths lead to from there. -/
theorem mem_preorderFrom_iff {p q : Path} {i : Nat} {b : Block} {bs : List Block} :
    (q, b) ∈ preorderFrom p i bs ↔ ∃ j r, q = p ++ (i + j) :: r ∧ get? ⟨bs⟩ (j :: r) = some b := by
  induction bs using Block.sequence_induction generalizing p i with
  | nil =>
    rw [preorderFrom_nil]
    refine iff_of_false List.not_mem_nil ?_
    rintro ⟨j, r, -, hget⟩
    cases hget
  | cons a bs ihchildren ihbs =>
    rw [preorderFrom_cons, List.mem_cons, List.mem_append, ihchildren, ihbs]
    constructor
    · rintro (h | ⟨j, r, rfl, hget⟩ | ⟨j, r, rfl, hget⟩)
      · cases h
        exact ⟨0, [], rfl, rfl⟩
      · exact ⟨0, j :: r, by simp, (Program.descend?_cons a j r).trans hget⟩
      · exact ⟨j + 1, r, by rw [Nat.add_right_comm, Nat.add_assoc], hget⟩
    · rintro ⟨j, r, rfl, hget⟩
      match j, r with
      | 0, [] =>
        cases hget
        exact .inl rfl
      | 0, j :: r => exact .inr (.inl ⟨j, r, by simp, (Program.descend?_cons a j r).symm.trans hget⟩)
      | j + 1, r => exact .inr (.inr ⟨j, r, by rw [Nat.add_right_comm, Nat.add_assoc], hget⟩)

theorem Program.mem_walk_iff {t : Program} {p : Path} {b : Block} : (p, b) ∈ t.walk ↔ t.get? p = some b := by
  rw [walk_eq_preorderFrom, mem_preorderFrom_iff]
  constructor
  · rintro ⟨j, r, rfl, hget⟩
    rwa [Nat.zero_add]
  · intro hget
    cases p with
    | nil => cases hget
    | cons j r => exact ⟨j, r, by rw [Nat.zero_add, List.nil_append], hget⟩

namespace Block

theorem total_eq (b : Block) : b.total = totalOf b.children + 1 := by
  cases b with
  | cond lhs op rhs body => rw [total]; rfl
  | declare _ | assign _ _ | calculate _ _ => simp [total, children, body?, totalOf]

theorem length_preorderFrom (p : Path) (i : Nat) (bs : List Block) : (preorderFrom p i bs).length = totalOf bs := by
  induction bs using sequence_induction generalizing p i with
  | nil => rw [preorderFrom_nil, totalOf, List.length_nil]
  | cons b bs ihchildren ihbs =>
    rw [preorderFrom_cons, List.length_cons, List.length_append, ihchildren, ihbs, totalOf, total_eq]
    omega

theorem length_bares (bs : List Block) : (bares bs).length = totalOf bs :=
  (List.length_map _).trans (length_preorderFrom [] 0 bs)

end Block

theorem Program.count_eq_totalOf (t : Program) : t.count = totalOf t.blocks := by
  rw [count, walk_eq_preorderFrom, Block.length_preorderFrom]

/-! ## The steps of a walk -/

namespace Walk

/-- From the walk `w` on, the next steps make the listed visits and lead to the walk at the end. -/
inductive Makes : (w : Walk) → List (Path × Block) → Walk → Prop where
  | nil (w : Walk) : Makes w [] w
  | cons {w w' w'' : Walk} {visit : Path × Block} {visits : List (Path × Block)} (hnext : w.next? = some (visit, w'))
      (h : Makes w' visits w'') : Makes w (visit :: visits) w''

/-- A walk makes all its visits, and then there is no next one. -/
theorem exists_makes_visits (w : Walk) : ∃ w', Makes w w.visits w' ∧ w'.next? = none := by
  fun_induction visits w with
  | case1 w hnext => exact ⟨w, .nil w, hnext⟩
  | case2 w visit w' hnext ih =>
    obtain ⟨w'', hmakes, hdone⟩ := ih
    exact ⟨w'', .cons hnext hmakes, hdone⟩

/-- A block has been visited in each of the sequences around the innermost one. -/
def Underway (w : Walk) : Prop := ∀ f ∈ w.tail, 1 ≤ f.visited

theorem underway_start (blocks : List Block) : Underway (start blocks) := List.forall_mem_nil _

theorem underway_enter {w : Walk} (h : ∀ f ∈ w, 1 ≤ f.visited) (b : Block) : Underway (w.enter b) := by
  rw [enter]
  cases b.body? with
  | none => exact fun f hf => h f (List.mem_of_mem_tail hf)
  | some body => exact h

/-- The path of the next block is formed when a block has been visited in each of the sequences, and then the walk goes
into that block. -/
theorem Underway.next {w w' : Walk} {p : Path} {b : Block} (h : Underway w) (hnext : w.next? = some ((p, b), w')) :
    ∃ stack : Walk, p = stack.path ∧ w' = stack.enter b ∧ ∀ f ∈ stack, 1 ≤ f.visited := by
  fun_induction next? w with
  | case1 => cases hnext
  | case2 n w ih => exact ih (fun f hf => h f (List.mem_of_mem_tail hf)) hnext
  | case3 n a ahead w stack =>
    cases hnext
    refine ⟨stack, rfl, rfl, fun f hf => ?_⟩
    rcases List.mem_cons.1 hf with rfl | hf
    · exact Nat.le_add_left 1 n
    · exact h f hf

theorem Underway.makes {w w' : Walk} {visits : List (Path × Block)} (h : Underway w) (hmakes : Makes w visits w') :
    Underway w' := by
  induction hmakes with
  | nil w => exact h
  | cons hnext _ ih =>
    obtain ⟨stack, -, rfl, hstack⟩ := h.next hnext
    exact ih (underway_enter hstack _)

end Walk

namespace Program

/-- **The walk visits each address once, in the order of paths.** It comes to an end. A block is visited at a path
exactly if it is there, and the visits are those of the recursion on the blocks, as many as there are blocks at all
levels. One can be taken off the length of a path for the indentation of its line, and off each of the numbers that a
path is formed from. -/
theorem walk_lists_addresses (t : Program) :
    (∃ w, Walk.Makes (.start t.blocks) t.walk w ∧ w.next? = none) ∧
      (∀ p b, (p, b) ∈ t.walk ↔ t.get? p = some b) ∧
      (t.walk.map Prod.fst).Nodup ∧
      (t.walk.map Prod.fst).Pairwise Path.Before ∧
      t.walk = preorderFrom [] 0 t.blocks ∧
      t.count = totalOf t.blocks ∧
      (∀ visit ∈ t.walk, 1 ≤ visit.1.length) ∧
      ∀ visits w p b w', Walk.Makes (.start t.blocks) visits w → w.next? = some ((p, b), w') →
        ∃ stack : Walk, p = stack.path ∧ w' = stack.enter b ∧ ∀ f ∈ stack, 1 ≤ f.visited := by
  have hbefore : (t.walk.map Prod.fst).Pairwise Path.Before := by
    rw [walk_eq_preorderFrom]
    exact Block.pairwise_preorderFrom [] 0 t.blocks
  refine ⟨Walk.exists_makes_visits _, fun _ _ => mem_walk_iff, hbefore.imp fun h => h.ne, hbefore,
    walk_eq_preorderFrom t, count_eq_totalOf t, ?_, ?_⟩
  · rintro ⟨p, b⟩ hmem
    cases p with
    | nil => cases mem_walk_iff.1 hmem
    | cons i p => exact Nat.le_add_left 1 p.length
  · intro visits w p b w' hmakes hnext
    exact ((Walk.underway_start t.blocks).makes hmakes).next hnext

/-- A program with an empty condition inside a condition, and blocks behind both. -/
def nested : Program := ⟨[.cond "1" .lt "2" [.cond "2" .lt "1" [], .declare ["x"]], .assign "x" "1"]⟩

/-- Behind the empty condition, when its body has been left, two sequences are open and both have been visited. -/
theorem walk_lists_addresses_nested :
    ([0, 1], .declare ["x"]) ∈ nested.walk ∧ nested.count = 4 ∧
      ∃ stack : Walk, [0, 1] = stack.path ∧
        [⟨2, []⟩, ⟨1, [.assign "x" "1"]⟩] = stack.enter (.declare ["x"]) ∧ ∀ f ∈ stack, 1 ≤ f.visited :=
  have hmakes : Walk.Makes (.start nested.blocks)
      [([0], .cond "1" .lt "2" [.cond "2" .lt "1" [], .declare ["x"]]), ([0, 0], .cond "2" .lt "1" [])]
      [⟨0, []⟩, ⟨1, [.declare ["x"]]⟩, ⟨1, [.assign "x" "1"]⟩] := .cons rfl (.cons rfl (.nil _))
  have h := walk_lists_addresses nested
  ⟨(h.2.1 _ _).2 rfl, h.2.2.2.2.2.1, h.2.2.2.2.2.2.2 _ _ _ _ _ hmakes rfl⟩

end Program

end BlockScript
