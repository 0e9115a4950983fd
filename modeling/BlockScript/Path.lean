/-!
# Paths

A path says where a block stands: the index of the block in its sequence, preceded by the indices of the blocks around
it from the outside in. Indices count from 0, but a path is shown with indices that count from 1.
-/

namespace BlockScript

/-- The place of a block. The empty path is the root, which is no block but the program's own sequence. -/
abbrev Path := List Nat

namespace Path

/-- The path as shown to a user: `[1, 0]` is `2.1`. -/
def text : Path → String
  | [] => "<root>"
  | p => ".".intercalate (p.map fun i => toString (i + 1))

/-- The path of the sequence that a block stands in, and the block's index there. -/
def splitLast? : Path → Option (Path × Nat)
  | [] => none
  | [i] => some ([], i)
  | i :: p => (splitLast? p).map fun (parent, last) => (i :: parent, last)

theorem splitLast?_eq_some_iff {p parent : Path} {i : Nat} : splitLast? p = some (parent, i) ↔ p = parent ++ [i] := by
  fun_induction splitLast? p generalizing parent with
  | case1 => simp
  | case2 j =>
    cases parent with
    | nil => simp
    | cons k parent => simp
  | case3 j p hp ih =>
    cases parent with
    | nil =>
      have : p ≠ [] := fun h => hp h
      simp [this]
    | cons k parent =>
      simp only [Option.map_eq_some_iff, Prod.exists, Prod.mk.injEq, List.cons.injEq, List.cons_append]
      constructor
      · rintro ⟨q, l, hq, ⟨rfl, rfl⟩, rfl⟩
        exact ⟨rfl, ih.1 hq⟩
      · rintro ⟨rfl, hq⟩
        exact ⟨parent, i, ih.2 hq, ⟨rfl, rfl⟩, rfl⟩

/-- Whether `p` leads to a place strictly inside the block at `q`. -/
def isInside (p q : Path) : Bool := q.length < p.length && q.isPrefixOf p

/-- Where the place `p` is found once the block at `removed` is gone: the blocks that came after it in its sequence
have moved up, with all that is inside them. -/
def afterRemoval : (p removed : Path) → Path
  | i :: p, [j] => (if j < i then i - 1 else i) :: p
  | i :: p, j :: removed => if i = j then i :: afterRemoval p removed else i :: p
  | p, _ => p

end Path

end BlockScript
