import BlockScript.Proofs.Move
import BlockScript.Proofs.Stopping
import Mathlib.Control.Monad.Basic

/-!
# Blocks that are not filled in yet

An assignment without a target and a declaration without names do nothing. Such a placeholder can stand anywhere in a
program and a run does not notice it, but for the paths of the blocks behind it, which are others, and its own path
among those that are visited.

A run of the program with the placeholder is compared with one of the program without it by induction on the placement
(`Places.spliced`). `Outcome.Spliced` is what the two outcomes have to do with each other; it is kept when outcomes are
put one behind the other, inside a block, and further down a sequence. The placeholder is visited exactly if the run
comes to its place (`ComesTo`).
-/

namespace BlockScript

open Text (trim isBlankText)
open Program (get? insert)

/-! ## Placeholders -/

/-- Whether a block is an assignment with a blank target, or a declaration all of whose pieces are blank. -/
def Block.isPlaceholder : Block → Bool
  | assign target _ => isBlankText target
  | declare entries => (entries.flatMap (Text.splitOn ',')).all isBlankText
  | _ => false

theorem Block.effect_of_isPlaceholder {b : Block} (h : b.isPlaceholder = true) (env : Env) :
    b.effect env = .ok (env, false) := by
  cases b with
  | assign target literal =>
    have hblank : (trim target).isEmpty = true := h
    simp only [effect, execAssign, execAssignWith, hblank, if_true]
    rfl
  | declare entries =>
    have hnone : declaredNames entries = [] := by
      rw [declaredNames, List.filter_eq_nil_iff]
      intro name hname
      obtain ⟨piece, hpiece, rfl⟩ := List.mem_map.1 hname
      have hblank : (trim piece).isEmpty = true := List.all_eq_true.1 h piece hpiece
      simp [hblank]
    simp only [effect, execDeclare, hnone]
    rfl
  | calculate _ _ | cond _ _ _ _ => cases h

theorem Block.exec_of_isPlaceholder {b : Block} (h : b.isPlaceholder = true) (env : Env) :
    b.exec env = ⟨env, [[]], none⟩ := by
  have hchildren : b.children = [] := by
    cases b with
    | cond _ _ _ _ => cases h
    | declare _ | assign _ _ | calculate _ _ => rfl
  rw [exec_eq, effect_of_isPlaceholder h, hchildren, proceed, execFrom_nil]
  rfl

/-! ## Places that a run comes to -/

/-- A run of `bs` from `env` enters the sequence at a path, which holds `blocks`, and finds `env'` there: it is the
sequence `bs` itself, or the body of a condition which the run reaches and which holds there. -/
def Enters (env : Env) (bs : List Block) (p : Path) (blocks : List Block) (env' : Env) : Prop :=
  (p = [] ∧ blocks = bs ∧ env' = env) ∨
  ∃ lhs op rhs, Reaches env bs p env' ∧ get? ⟨bs⟩ p = some (.cond lhs op rhs blocks) ∧
    condition lhs op rhs env' = .ok true

/-- A run comes to a place: it enters the sequence of the place, and all blocks before the place in that sequence run to
their end. -/
def ComesTo (env : Env) (bs : List Block) (p : Path) : Prop :=
  ∃ parent i blocks env', p = parent ++ [i] ∧ Enters env bs parent blocks env' ∧
    (run (blocks.take i) env').failure = none

section ComesTo

variable {env env' : Env} {bs blocks : List Block} {b : Block} {p : Path} {i : Nat} {lhs rhs : String}
  {op : Comparison} {body : List Block}

theorem enters_zero_iff : Enters env (.cond lhs op rhs body :: bs) (0 :: p) blocks env' ↔
    condition lhs op rhs env = .ok true ∧ Enters env body p blocks env' := by
  constructor
  · rintro (⟨hp, -⟩ | ⟨lhs', op', rhs', hreaches, hget, hholds⟩)
    · cases hp
    · cases hreaches with
      | here =>
        cases hget
        exact ⟨hholds, .inl ⟨rfl, rfl, rfl⟩⟩
      | inside _ hcond h =>
        obtain ⟨j, q, rfl⟩ := h.exists_cons
        have hget' := (Program.descend?_cons (.cond lhs op rhs body) j q).symm.trans hget
        exact ⟨hcond, .inr ⟨lhs', op', rhs', h, hget', hholds⟩⟩
  · rintro ⟨hcond, ⟨rfl, rfl, rfl⟩ | ⟨lhs', op', rhs', hreaches, hget, hholds⟩⟩
    · exact .inr ⟨lhs, op, rhs, .here _ _ _, rfl, hcond⟩
    · obtain ⟨j, q, rfl⟩ := hreaches.exists_cons
      have hget' := (Program.descend?_cons (.cond lhs op rhs body) j q).trans hget
      exact .inr ⟨lhs', op', rhs', .inside bs hcond hreaches, hget', hholds⟩

theorem enters_succ_iff : Enters env (b :: bs) ((i + 1) :: p) blocks env' ↔
    (b.exec env).failure = none ∧ Enters (b.exec env).env bs (i :: p) blocks env' := by
  constructor
  · rintro (⟨hp, -⟩ | ⟨lhs, op, rhs, hreaches, hget, hholds⟩)
    · cases hp
    · cases hreaches with
      | later hpast h => exact ⟨hpast, .inr ⟨lhs, op, rhs, h, hget, hholds⟩⟩
  · rintro ⟨hpast, ⟨hp, -⟩ | ⟨lhs, op, rhs, hreaches, hget, hholds⟩⟩
    · cases hp
    · exact .inr ⟨lhs, op, rhs, .later hpast hreaches, hget, hholds⟩

theorem comesTo_zero (env : Env) (bs : List Block) : ComesTo env bs [0] :=
  ⟨[], 0, bs, env, rfl, .inl ⟨rfl, rfl, rfl⟩, by rw [List.take_zero, run_nil]⟩

theorem comesTo_inside_iff : ComesTo env (.cond lhs op rhs body :: bs) (0 :: i :: p) ↔
    condition lhs op rhs env = .ok true ∧ ComesTo env body (i :: p) := by
  constructor
  · rintro ⟨parent, k, blocks, env', hp, henters, hrun⟩
    cases parent with
    | nil => cases hp
    | cons j parent =>
      obtain ⟨rfl, hparent⟩ := List.cons.inj hp
      obtain ⟨hcond, henters⟩ := enters_zero_iff.1 henters
      exact ⟨hcond, parent, k, blocks, env', hparent, henters, hrun⟩
  · rintro ⟨hcond, parent, k, blocks, env', hp, henters, hrun⟩
    exact ⟨0 :: parent, k, blocks, env', congrArg (List.cons 0) hp, enters_zero_iff.2 ⟨hcond, henters⟩, hrun⟩

theorem run_cons_failure_eq_none_iff : (run (b :: bs) env).failure = none ↔
    (b.exec env).failure = none ∧ (run bs (b.exec env).env).failure = none := by
  cases hfailure : (b.exec env).failure with
  | some f => simp [run_cons_of_failure bs hfailure, Outcome.under, hfailure]
  | none => simp [run_cons_of_success bs hfailure, Outcome.andThen, Outcome.shift]

theorem comesTo_later_iff : ComesTo env (b :: bs) ((i + 1) :: p) ↔
    (b.exec env).failure = none ∧ ComesTo (b.exec env).env bs (i :: p) := by
  constructor
  · rintro ⟨parent, k, blocks, env', hp, henters, hrun⟩
    cases parent with
    | nil =>
      obtain ⟨rfl, rfl⟩ := List.cons.inj hp
      obtain ⟨-, rfl, rfl⟩ | ⟨_, _, _, hreaches, -⟩ := henters
      · rw [List.take_succ_cons, run_cons_failure_eq_none_iff] at hrun
        exact ⟨hrun.1, [], i, bs, _, rfl, .inl ⟨rfl, rfl, rfl⟩, hrun.2⟩
      · cases hreaches
    | cons j parent =>
      obtain ⟨rfl, hparent⟩ := List.cons.inj hp
      obtain ⟨hpast, henters⟩ := enters_succ_iff.1 henters
      exact ⟨hpast, i :: parent, k, blocks, env', congrArg (List.cons i) hparent, henters, hrun⟩
  · rintro ⟨hpast, parent, k, blocks, env', hp, henters, hrun⟩
    cases parent with
    | nil =>
      obtain ⟨rfl, rfl⟩ := List.cons.inj hp
      obtain ⟨-, rfl, rfl⟩ | ⟨_, _, _, hreaches, -⟩ := henters
      · refine ⟨[], i + 1, b :: blocks, env, rfl, .inl ⟨rfl, rfl, rfl⟩, ?_⟩
        rw [List.take_succ_cons, run_cons_failure_eq_none_iff]
        exact ⟨hpast, hrun⟩
      · cases hreaches
    | cons j parent =>
      obtain ⟨rfl, hparent⟩ := List.cons.inj hp
      exact ⟨(i + 1) :: parent, k, blocks, env', congrArg (List.cons (i + 1)) hparent,
        enters_succ_iff.2 ⟨hpast, henters⟩, hrun⟩

end ComesTo

/-! ## Outcomes with one more visit -/

namespace Path

/-- Counting from one block further up, and further up for the insertion too. -/
theorem afterInsertion_shift (q : Path) (i : Nat) (p : Path) :
    (q.shift 1).afterInsertion ((i + 1) :: p) = (q.afterInsertion (i :: p)).shift 1 := by
  cases q with
  | nil => rw [shift, afterInsertion_nil_left, afterInsertion_nil_left, shift]
  | cons j q =>
    obtain ⟨k, r, hk, hk'⟩ := afterInsertion_succ j i q p
    rw [hk]
    exact hk'

/-- What is behind the first block stays in place when something is put inside it. -/
theorem afterInsertion_shift_inside (q : Path) (i : Nat) (p : Path) :
    (q.shift 1).afterInsertion (0 :: i :: p) = q.shift 1 := by
  cases q with
  | nil => rfl
  | cons j q => rfl

theorem afterInsertion_singleton_zero (q : Path) : q.afterInsertion [0] = q.shift 1 := by
  cases q with
  | nil => rfl
  | cons j q => rfl

end Path

namespace Outcome

/-- The outcome with all paths as they are after an insertion at `p`. -/
def moved (p : Path) (o : Outcome) : Outcome :=
  ⟨o.env, o.visited.map (·.afterInsertion p), o.failure.map fun f => { f with path := f.path.afterInsertion p }⟩

variable {p : Path} {i : Nat} {o o' : Outcome} {k k' : Env → Outcome}

theorem moved_thenRun (p : Path) (o : Outcome) (k : Env → Outcome) :
    (o.thenRun k).moved p = (o.moved p).thenRun fun env => (k env).moved p := by
  obtain ⟨env, visited, failure⟩ := o
  cases failure with
  | some f => rfl
  | none => simp [thenRun, andThen, moved]

theorem moved_entered (p : Path) (o : Outcome) : o.entered.moved p = (o.moved p).entered := by
  simp [moved, entered, Path.afterInsertion_nil_left]

theorem moved_under (i j : Nat) (p : Path) (o : Outcome) :
    (o.under i).moved (i :: j :: p) = (o.moved (j :: p)).under i := by
  obtain ⟨env, visited, failure⟩ := o
  cases failure <;> simp [moved, under, Path.afterInsertion_cons_cons]

theorem moved_shift (i : Nat) (p : Path) (o : Outcome) :
    (o.shift 1).moved ((i + 1) :: p) = (o.moved (i :: p)).shift 1 := by
  obtain ⟨env, visited, failure⟩ := o
  cases failure <;> simp [moved, shift, Path.afterInsertion_shift]

theorem moved_under_zero (i : Nat) (p : Path) (o : Outcome) : (o.under 0).moved ((i + 1) :: p) = o.under 0 := by
  obtain ⟨env, visited, failure⟩ := o
  cases failure <;> simp [moved, under, Path.afterInsertion_zero_succ]

theorem moved_shift_inside (i : Nat) (p : Path) (o : Outcome) : (o.shift 1).moved (0 :: i :: p) = o.shift 1 := by
  obtain ⟨env, visited, failure⟩ := o
  cases failure <;> simp [moved, shift, Path.afterInsertion_shift_inside]

theorem moved_singleton_zero (o : Outcome) : o.moved [0] = o.shift 1 := by
  simp [moved, shift, Path.afterInsertion_singleton_zero]

/-- `o'` is `o` after an insertion at `p`: all paths are as they are then, and `p` itself is visited in addition if the
run comes there. -/
structure Spliced (p : Path) (comes : Prop) (o o' : Outcome) : Prop where
  of_not_comes : ¬ comes → o' = o.moved p
  of_comes : comes → ∃ early late, (o.moved p).visited = early ++ late ∧
    o' = ⟨o.env, early ++ p :: late, (o.moved p).failure⟩

namespace Spliced

variable {comes : Prop}

theorem of_moved_eq (h : o.moved p = o) (hcomes : ¬ comes) : Spliced p comes o o :=
  ⟨fun _ => h.symm, fun hc => absurd hc hcomes⟩

theorem entered (h : Spliced p comes o o') : Spliced p comes o.entered o'.entered := by
  constructor
  · intro hc
    rw [h.of_not_comes hc, moved_entered]
  · intro hc
    obtain ⟨early, late, hvisited, rfl⟩ := h.of_comes hc
    refine ⟨[] :: early, late, ?_, ?_⟩
    · rw [moved_entered, Outcome.entered, hvisited, List.cons_append]
    · rw [moved_entered]
      rfl

theorem under {j : Nat} (h : Spliced (j :: p) comes o o') (i : Nat) :
    Spliced (i :: j :: p) comes (o.under i) (o'.under i) := by
  constructor
  · intro hc
    rw [h.of_not_comes hc, moved_under]
  · intro hc
    obtain ⟨early, late, hvisited, rfl⟩ := h.of_comes hc
    refine ⟨early.map (i :: ·), late.map (i :: ·), ?_, ?_⟩
    · rw [moved_under, Outcome.under, hvisited, List.map_append]
    · rw [moved_under]
      simp [Outcome.under]

theorem shift (h : Spliced (i :: p) comes o o') : Spliced ((i + 1) :: p) comes (o.shift 1) (o'.shift 1) := by
  constructor
  · intro hc
    rw [h.of_not_comes hc, moved_shift]
  · intro hc
    obtain ⟨early, late, hvisited, rfl⟩ := h.of_comes hc
    refine ⟨early.map (Path.shift 1), late.map (Path.shift 1), ?_, ?_⟩
    · rw [moved_shift, Outcome.shift, hvisited, List.map_append]
    · rw [moved_shift]
      simp [Outcome.shift, Path.shift]

/-- What comes behind the place of insertion is the same, if its paths are not moved. -/
theorem thenRun (h : Spliced p comes o o') (hk : ∀ env, (k env).moved p = k env) :
    Spliced p comes (o.thenRun k) (o'.thenRun k) := by
  have hmoved : (o.thenRun k).moved p = (o.moved p).thenRun k := by simp only [moved_thenRun, hk]
  constructor
  · intro hc
    rw [h.of_not_comes hc, hmoved]
  · intro hc
    obtain ⟨early, late, hvisited, rfl⟩ := h.of_comes hc
    rw [hmoved]
    obtain ⟨env, visited, failure⟩ := o
    cases failure with
    | some f => exact ⟨early, late, hvisited, rfl⟩
    | none =>
      refine ⟨early, late ++ (k env).visited, ?_, by simp [Outcome.thenRun, andThen, moved]⟩
      change visited.map (·.afterInsertion p) ++ (k env).visited = _
      rw [← List.append_assoc]
      exact congrArg (· ++ (k env).visited) hvisited

/-- What comes before the place of insertion is the same, if its paths are not moved. -/
theorem thenRun_left (ho : o.moved p = o) (hfailure : o.failure = none)
    (h : Spliced p comes (k o.env) (k' o.env)) : Spliced p comes (o.thenRun k) (o.thenRun k') := by
  have hmoved : (o.thenRun k).moved p = o.andThen ((k o.env).moved p) := by
    rw [moved_thenRun, ho, thenRun_of_success hfailure]
  constructor
  · intro hc
    rw [hmoved, thenRun_of_success hfailure, h.of_not_comes hc]
  · intro hc
    obtain ⟨early, late, hvisited, hk'⟩ := h.of_comes hc
    rw [hmoved, thenRun_of_success hfailure, thenRun_of_success hfailure, hk']
    exact ⟨o.visited ++ early, late, by simp [andThen, hvisited], by simp [andThen]⟩

end Spliced

end Outcome

open Outcome (Spliced)

/-- A condition that does not hold, or cannot be computed, has the same outcome whatever is inside it. -/
theorem Block.exec_cond_of_not_holds {lhs rhs : String} {op : Comparison} {env : Env}
    (h : condition lhs op rhs env ≠ .ok true) (body : List Block) :
    (cond lhs op rhs body).exec env = .ofEffect env ((condition lhs op rhs env).map fun _ => env) := by
  rw [exec]
  cases hcond : condition lhs op rhs env with
  | error e => rfl
  | ok holds =>
    cases holds with
    | false => rfl
    | true => exact absurd hcond h

/-- **Outcomes with and without a placeholder match**, wherever the placeholder is. -/
theorem Places.spliced {b : Block} {p : Path} {bs bs' : List Block} (h : Places b p bs bs')
    (hb : b.isPlaceholder = true) (env : Env) : Spliced p (ComesTo env bs p) (run bs env) (run bs' env) := by
  induction h generalizing env with
  | here bs =>
    refine ⟨fun hcomes => absurd (comesTo_zero env bs) hcomes, fun _ => ?_⟩
    refine ⟨[], ((run bs env).moved [0]).visited, rfl, ?_⟩
    rw [run_cons, Block.exec_of_isPlaceholder hb, Outcome.moved_singleton_zero]
    rfl
  | @inside q body body' lhs op rhs bs h ih =>
    obtain ⟨i, p, rfl⟩ := h.exists_cons
    have hrest : ∀ env, ((run bs env).shift 1).moved (0 :: i :: p) = (run bs env).shift 1 :=
      fun env => Outcome.moved_shift_inside i p _
    rw [run_cons, run_cons]
    -- what is behind the condition has the same paths in both programs, so only the body is compared
    refine Spliced.thenRun ?_ hrest
    by_cases hcond : condition lhs op rhs env = .ok true
    · have hcomes : ComesTo env (.cond lhs op rhs body :: bs) (0 :: i :: p) ↔ ComesTo env body (i :: p) :=
        comesTo_inside_iff.trans (and_iff_right hcond)
      rw [Block.exec_cond_of_holds hcond, Block.exec_cond_of_holds hcond, hcomes]
      exact (ih env).entered.under 0
    · rw [Block.exec_cond_of_not_holds hcond, Block.exec_cond_of_not_holds hcond]
      refine Spliced.of_moved_eq (by cases condition lhs op rhs env <;> rfl) fun hcomes => ?_
      exact hcond (comesTo_inside_iff.1 hcomes).1
  | @later i p bs bs' a h ih =>
    have hfirst := Outcome.moved_under_zero i p (a.exec env)
    rw [run_cons, run_cons]
    cases hfailure : (a.exec env).failure with
    | none =>
      have hcomes : ComesTo env (a :: bs) ((i + 1) :: p) ↔ ComesTo (a.exec env).env bs (i :: p) := by
        rw [comesTo_later_iff, hfailure, eq_self, true_and]
      rw [hcomes]
      exact Spliced.thenRun_left hfirst (congrArg (Option.map _) hfailure) (ih (a.exec env).env).shift
    | some f =>
      -- both runs end in the first block, before they come to the place
      have hunder : ((a.exec env).under 0).failure = some ⟨0 :: f.path, f.error⟩ := congrArg (Option.map _) hfailure
      rw [Outcome.thenRun_of_failure hunder, Outcome.thenRun_of_failure hunder]
      refine Spliced.of_moved_eq hfirst fun hcomes => ?_
      rw [(comesTo_later_iff.1 hcomes).1] at hfailure
      cases hfailure

theorem pairwise_visited_run (bs : List Block) (env : Env) : (run bs env).visited.Pairwise Path.Before := by
  rw [run_eq_scan_walk, Program.walk_eq_preorderFrom]
  exact (Block.pairwise_preorderFrom [] 0 bs).sublist (sublist_visited_scan _ _ _)

/-- **A run does not notice a placeholder.** Once one has been inserted at `p`, a run leaves the same environment and
fails for the same reason or not at all, at the same block as it is found after the insertion. It visits the same blocks
and, if it comes to `p`, the placeholder in its place between them, and no other block. -/
theorem insert_placeholder_unnoticed (t t' : Program) (p : Path) (b : Block) (hb : b.isPlaceholder = true)
    (hinsert : (insert p b).Yields t () t') (env : Env) :
    (run t'.blocks env).env = (run t.blocks env).env ∧
      (run t'.blocks env).failure =
        (run t.blocks env).failure.map (fun f => ⟨f.path.afterInsertion p, f.error⟩) ∧
      (run t'.blocks env).visited.Pairwise Path.Before ∧
      (ComesTo env t.blocks p → ∃ early late,
        (run t.blocks env).visited.map (·.afterInsertion p) = early ++ late ∧
          (run t'.blocks env).visited = early ++ p :: late) ∧
      (¬ ComesTo env t.blocks p →
        (run t'.blocks env).visited = (run t.blocks env).visited.map (·.afterInsertion p)) := by
  have hspliced := (Program.insert_yields_iff.1 hinsert).spliced hb env
  have hpairwise := pairwise_visited_run t'.blocks env
  by_cases hcomes : ComesTo env t.blocks p
  · obtain ⟨early, late, hvisited, hrun⟩ := hspliced.of_comes hcomes
    rw [hrun] at hpairwise ⊢
    exact ⟨rfl, rfl, hpairwise, fun _ => ⟨early, late, hvisited, rfl⟩, fun h => absurd hcomes h⟩
  · rw [hspliced.of_not_comes hcomes] at hpairwise ⊢
    exact ⟨rfl, rfl, hpairwise, fun h => absurd h hcomes, fun _ => rfl⟩

/-- A program that fails inside a condition. -/
def sketch : Program :=
  ⟨[.declare ["x"], .cond "x" .eq "0" [.calculate "x" "7", .calculate "x" "x / 0", .declare ["y"]], .declare ["z"]]⟩

/-- The same with a placeholder before the block that fails. -/
def sketchWithGap : Program :=
  ⟨[.declare ["x"], .cond "x" .eq "0"
    [.calculate "x" "7", .assign " " "?", .calculate "x" "x / 0", .declare ["y"]], .declare ["z"]]⟩

theorem insert_placeholder_unnoticed_sketch :
    (insert [1, 1] (.assign " " "?")).Yields sketch () sketchWithGap ∧
      (run sketchWithGap.blocks .empty).failure = some ⟨[1, 2], .expression .divisionByZero⟩ ∧
      (run sketchWithGap.blocks .empty).env = .ofList [("x", 7)] ∧
      [1, 1] ∈ (run sketchWithGap.blocks .empty).visited := by
  have hinsert : (insert [1, 1] (.assign " " "?")).Yields sketch () sketchWithGap := rfl
  have hfailure : (run sketch.blocks .empty).failure = some ⟨[1, 1], .expression .divisionByZero⟩ := by decide +kernel
  have henv : (run sketch.blocks .empty).env = .ofList [("x", 7)] := by decide +kernel
  have hcomes : ComesTo .empty sketch.blocks [1, 1] :=
    ⟨[1], 1, _, _, rfl,
      .inr ⟨"x", .eq, "0", .later (by decide +kernel) (.here _ _ _), rfl, by decide +kernel⟩, by decide +kernel⟩
  obtain ⟨henv', hfailure', -, hvisited, -⟩ :=
    insert_placeholder_unnoticed sketch sketchWithGap [1, 1] _ (by decide +kernel) hinsert .empty
  rw [hfailure] at hfailure'
  obtain ⟨early, late, -, hlist⟩ := hvisited hcomes
  exact ⟨hinsert, hfailure', henv'.trans henv, by simp [hlist]⟩

end BlockScript
