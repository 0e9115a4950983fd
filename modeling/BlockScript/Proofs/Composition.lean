import BlockScript.Proofs.Scan

/-!
# Runs one after the other

A sequence that is not the first part of a program runs as it does by itself, with its indices counted on from where it
begins (`execFrom_add`). So **running two sequences in one is running the first one and then, in the environment it
left, the second one** (`run_append`, and piece by piece `run_in_parts`), and a program can be taken apart at its first
block (`run_cons`).
-/

namespace BlockScript

open Block (execFrom execFrom_nil execFrom_cons)

/-- The path with its first index raised by `n`. -/
def Path.shift (n : Nat) : Path → Path
  | [] => []
  | i :: p => (i + n) :: p

namespace Outcome

/-- The outcome of a sequence, as seen when `n` blocks stand before it. -/
def shift (n : Nat) (o : Outcome) : Outcome :=
  ⟨o.env, o.visited.map (Path.shift n), o.failure.map fun f => { f with path := f.path.shift n }⟩

variable {o : Outcome} {k : Env → Outcome}

theorem shift_under (n i : Nat) (o : Outcome) : (o.under i).shift n = o.under (i + n) := by
  obtain ⟨env, visited, failure⟩ := o
  cases failure <;> simp [shift, under, Path.shift]

theorem shift_shift (m n : Nat) (o : Outcome) : (o.shift m).shift n = o.shift (m + n) := by
  have hpath : ∀ p : Path, (p.shift m).shift n = p.shift (m + n) := by
    intro p
    cases p with
    | nil => rfl
    | cons i p => exact congrArg (· :: p) (Nat.add_assoc i m n)
  obtain ⟨env, visited, failure⟩ := o
  cases failure <;> simp [shift, hpath]

theorem shift_thenRun (n : Nat) : (o.thenRun k).shift n = (o.shift n).thenRun fun env => (k env).shift n := by
  obtain ⟨env, visited, failure⟩ := o
  cases failure with
  | some f => rfl
  | none => simp [thenRun, andThen, shift]

end Outcome

theorem execFrom_add (i n : Nat) (env : Env) (bs : List Block) :
    execFrom (i + n) env bs = (execFrom i env bs).shift n := by
  induction bs generalizing i env with
  | nil =>
    rw [execFrom_nil, execFrom_nil]
    rfl
  | cons b bs ih =>
    rw [execFrom_cons, execFrom_cons, Outcome.shift_thenRun, Outcome.shift_under]
    congr 1
    funext env
    rw [← ih, Nat.add_right_comm]

theorem run_nil (env : Env) : run [] env = ⟨env, [], none⟩ := execFrom_nil 0 env

theorem run_cons (b : Block) (bs : List Block) (env : Env) :
    run (b :: bs) env = ((b.exec env).under 0).thenRun fun env => (run bs env).shift 1 := by
  rw [run, execFrom_cons]
  congr 1
  funext env
  exact execFrom_add 0 1 env bs

theorem run_cons_of_success {b : Block} {env : Env} (bs : List Block) (h : (b.exec env).failure = none) :
    run (b :: bs) env = ((b.exec env).under 0).andThen ((run bs (b.exec env).env).shift 1) := by
  have hunder : ((b.exec env).under 0).failure = none := congrArg (Option.map _) h
  rw [run_cons, Outcome.thenRun_of_success hunder]
  rfl

theorem run_cons_of_failure {b : Block} {env : Env} {f : Failure} (bs : List Block)
    (h : (b.exec env).failure = some f) : run (b :: bs) env = (b.exec env).under 0 := by
  have hunder : ((b.exec env).under 0).failure = some ⟨0 :: f.path, f.error⟩ := congrArg (Option.map _) h
  rw [run_cons, Outcome.thenRun_of_failure hunder]

theorem run_singleton (b : Block) (env : Env) : run [b] env = (b.exec env).under 0 := by
  rw [run_cons]
  simp only [run_nil]
  exact Outcome.thenRun_done _

/-- **Running two sequences in one is running them one after the other.** -/
theorem run_append (as bs : List Block) (env : Env) :
    run (as ++ bs) env = (run as env).thenRun fun env => (run bs env).shift as.length := by
  induction as generalizing env with
  | nil =>
    rw [run_nil]
    exact execFrom_add 0 0 env bs
  | cons a as ih =>
    rw [List.cons_append, run_cons, run_cons, Outcome.thenRun_assoc]
    congr 1
    funext env
    rw [ih, Outcome.shift_thenRun]
    simp only [Outcome.shift_shift, List.length_cons]

/-- No block that a sequence enters or fails at has the path of the sequence itself. -/
theorem execFrom_ne_nil (i : Nat) (env : Env) (bs : List Block) :
    (∀ p ∈ (execFrom i env bs).visited, p ≠ []) ∧ ∀ f, (execFrom i env bs).failure = some f → f.path ≠ [] := by
  induction bs generalizing i env with
  | nil =>
    rw [execFrom_nil]
    exact ⟨List.forall_mem_nil _, nofun⟩
  | cons b bs ih =>
    rw [execFrom_cons]
    have hunder : ∀ p ∈ ((b.exec env).under i).visited, p ≠ [] := by
      intro p hp
      obtain ⟨q, -, rfl⟩ := List.mem_map.1 hp
      exact List.cons_ne_nil i q
    cases hfailure : ((b.exec env).under i).failure with
    | some f =>
      rw [Outcome.thenRun_of_failure hfailure]
      refine ⟨hunder, fun g hg => ?_⟩
      obtain ⟨f', -, rfl⟩ := Option.map_eq_some_iff.1 hg
      exact List.cons_ne_nil i f'.path
    | none =>
      rw [Outcome.thenRun_of_success hfailure]
      obtain ⟨hvisited, hlater⟩ := ih (i + 1) ((b.exec env).under i).env
      refine ⟨fun p hp => ?_, hlater⟩
      rcases List.mem_append.1 hp with hp | hp
      · exact hunder p hp
      · exact hvisited p hp

section Paths

variable {bs : List Block} {env : Env}

theorem ne_nil_of_mem_visited {p : Path} (h : p ∈ (run bs env).visited) : p ≠ [] := (execFrom_ne_nil 0 env bs).1 p h

theorem path_ne_nil_of_failure {f : Failure} (h : (run bs env).failure = some f) : f.path ≠ [] :=
  (execFrom_ne_nil 0 env bs).2 f h

theorem Path.shift_of_ne_nil {p : Path} (h : p ≠ []) (n : Nat) : ∃ i q, p = i :: q ∧ p.shift n = (i + n) :: q := by
  obtain ⟨i, q, rfl⟩ := List.exists_cons_of_ne_nil h
  exact ⟨i, q, rfl, rfl⟩

end Paths

/-- **A program runs in parts.** If the first part fails, the rest of the program does not matter. If it succeeds, the
second part goes on in the environment that the first one leaves, and ends as it does by itself there; all that changes
is the first index of its paths, by the length of the first part. -/
theorem run_in_parts (as bs : List Block) (env : Env) :
    (∀ f, (run as env).failure = some f → run (as ++ bs) env = run as env) ∧
      ((run as env).failure = none →
        (run (as ++ bs) env).env = (run bs (run as env).env).env ∧
          ((run bs (run as env).env).failure = none → (run (as ++ bs) env).failure = none) ∧
          (∀ p err, (run bs (run as env).env).failure = some ⟨p, err⟩ →
            ∃ i q, p = i :: q ∧ (run (as ++ bs) env).failure = some ⟨(i + as.length) :: q, err⟩) ∧
          (run (as ++ bs) env).visited =
            (run as env).visited ++ (run bs (run as env).env).visited.map (Path.shift as.length) ∧
          ∀ p ∈ (run bs (run as env).env).visited, ∃ i q, p = i :: q ∧ p.shift as.length = (i + as.length) :: q) := by
  rw [run_append]
  refine ⟨fun f hf => Outcome.thenRun_of_failure hf, fun hsuccess => ?_⟩
  rw [Outcome.thenRun_of_success hsuccess]
  refine ⟨rfl, fun hnone => congrArg (Option.map _) hnone, fun p err hfails => ?_, rfl, fun p hp => ?_⟩
  · obtain ⟨i, q, rfl, hshift⟩ := Path.shift_of_ne_nil (path_ne_nil_of_failure hfails) as.length
    refine ⟨i, q, rfl, ?_⟩
    rw [← hshift]
    exact congrArg (Option.map _) hfails
  · exact Path.shift_of_ne_nil (ne_nil_of_mem_visited hp) as.length

/-- Two blocks that run in any environment. -/
def preparing : List Block := [.declare ["x"], .cond "1" .lt "2" [.calculate "x" "7"]]

/-- Blocks that fail inside a condition if `x` is 7. -/
def dividing : List Block := [.cond "x" .eq "7" [.declare ["y"], .calculate "y" "x / 0"], .declare ["z"]]

theorem run_in_parts_preparing :
    (run (preparing ++ dividing) .empty).failure = some ⟨[2, 1], .expression .divisionByZero⟩ ∧
      (run (preparing ++ dividing) .empty).visited = [[0], [1], [1, 0], [2], [2, 0], [2, 1]] ∧
      run (dividing ++ preparing) (.ofList [("x", 7)]) = run dividing (.ofList [("x", 7)]) := by
  have hpreparing : run preparing .empty = ⟨.ofList [("x", 7)], [[0], [1], [1, 0]], none⟩ := by decide +kernel
  have hdividing : run dividing (.ofList [("x", 7)]) =
      ⟨.ofList [("x", 7), ("y", 0)], [[0], [0, 0], [0, 1]], some ⟨[0, 1], .expression .divisionByZero⟩⟩ := by
    decide +kernel
  obtain ⟨-, -, hfailure, hvisited, -⟩ := (run_in_parts preparing dividing .empty).2 (by rw [hpreparing])
  rw [hpreparing, hdividing] at hfailure hvisited
  obtain ⟨i, q, hpath, hfails⟩ := hfailure _ _ rfl
  cases hpath
  exact ⟨hfails, hvisited, (run_in_parts dividing preparing _).1 _ (by rw [hdividing])⟩

end BlockScript
