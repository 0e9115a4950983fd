import BlockScript.Program.Basic

/-!
# Walking a program

A walk visits the blocks of a program one after the other, each before the blocks of its body and those before its next
sibling. It remembers the sequences it is in, so it can be taken a step at a time; `Program.walk` takes all steps.
-/

namespace BlockScript

/-- A sequence that is being walked: how many of its blocks have been visited, and those that have not. -/
structure Walk.Frame where
  visited : Nat
  ahead : List Block

/-- A walk under way: the sequences it is in, the innermost first. -/
abbrev Walk := List Walk.Frame

namespace Walk

/-- The walk through a sequence, before its first step. -/
def start (blocks : List Block) : Walk := [⟨0, blocks⟩]

/-- The path of the block visited last, as long as its body has not been entered. -/
def path (w : Walk) : Path := (w.map fun f => f.visited - 1).reverse

/-- Goes into the body of a block, if it has one. -/
def enter (w : Walk) (b : Block) : Walk :=
  match b.body? with
  | some body => ⟨0, body⟩ :: w
  | none => w

/-- The next block with its path, and the walk after it. Sequences that have been walked to their end are left. -/
def next? : Walk → Option ((Path × Block) × Walk)
  | [] => none
  | ⟨_, []⟩ :: w => next? w
  | ⟨n, b :: ahead⟩ :: w =>
    let w' : Walk := ⟨n + 1, ahead⟩ :: w
    some ((w'.path, b), w'.enter b)

/-- How many blocks there are still to visit. -/
def remaining : Walk → Nat
  | [] => 0
  | f :: w => Block.totalOf f.ahead + remaining w

@[simp]
theorem remaining_nil : remaining [] = 0 := rfl

@[simp]
theorem remaining_cons (n : Nat) (ahead : List Block) (w : Walk) :
    remaining (⟨n, ahead⟩ :: w) = Block.totalOf ahead + remaining w := rfl

theorem remaining_enter (w : Walk) (b : Block) : remaining (w.enter b) + 1 = remaining w + b.total := by
  cases b <;> simp [enter, Block.body?, Block.total]
  omega

/-- Each step visits one block. -/
theorem remaining_next? {w w' : Walk} {visit : Path × Block} (h : next? w = some (visit, w')) :
    remaining w' + 1 = remaining w := by
  fun_induction next? w with
  | case1 => simp at h
  | case2 n w ih => simpa [Block.totalOf] using ih h
  | case3 n b ahead w stepped =>
    simp only [Option.some.injEq, Prod.mk.injEq] at h
    obtain ⟨-, rfl⟩ := h
    rw [remaining_enter]
    simp only [stepped, remaining_cons, Block.totalOf]
    omega

/-- All visits that are left. -/
def visits (w : Walk) : List (Path × Block) :=
  match _h : w.next? with
  | none => []
  | some (visit, w') => visit :: visits w'
termination_by w.remaining
decreasing_by
  have := remaining_next? ‹_›
  omega

end Walk

namespace Program

/-- All blocks with their paths, each before its body and its body before its next sibling. -/
def walk (t : Program) : List (Path × Block) := (Walk.start t.blocks).visits

/-- The number of blocks at all levels. -/
def count (t : Program) : Nat := t.walk.length

/-- A path, filled up to six columns. -/
def paddedPath (p : Path) : String :=
  p.text ++ String.ofList (List.replicate (6 - p.text.length) ' ')

/-- A line for each block: its path and its text, indented by two blanks for each level below the top. -/
def outline (t : Program) : String :=
  String.join (t.walk.map fun (p, b) =>
    String.ofList (List.replicate (2 * (p.length - 1)) ' ') ++ paddedPath p ++ " " ++ b.text ++ "\n")

end Program

end BlockScript
