import BlockScript.Proofs.Effects

/-!
# Variables a program has nothing to do with

`mentioned bs` lists the names that the blocks of a program mention, at all levels. In two environments that agree on
them the run takes the same way: it visits the same blocks, ends with the same failure, if any, and the environments it
leaves agree again (`run_alike`). And it leaves all other variables alone. Together, **a run sees and changes only the
variables that its program mentions** (`run_depends_on_mentioned`).
-/

namespace BlockScript

open Block (bares bares_cons)
open Env (AgreeOn)

/-- The names that the blocks of a sequence mention, at all levels. -/
def mentioned (bs : List Block) : List String := (bares bs).flatMap Block.names

theorem mem_mentioned_cons {b : Block} {bs : List Block} {x : String} :
    x ∈ mentioned (b :: bs) ↔ x ∈ b.names ∨ x ∈ mentioned b.children ∨ x ∈ mentioned bs := by
  simp only [mentioned, bares_cons, List.flatMap_cons, List.flatMap_append, List.mem_append, Block.names_bare]

/-! ## Two runs side by side -/

/-- The two outcomes differ in variables other than those named, and in nothing else. -/
structure Outcome.Alike (names : List String) (o o' : Outcome) : Prop where
  visited : o.visited = o'.visited
  failure : o.failure = o'.failure
  agree : AgreeOn names o.env o'.env

namespace Outcome.Alike

variable {names : List String} {o o' : Outcome} {k k' : Env → Outcome}

theorem under (h : Alike names o o') (i : Nat) : Alike names (o.under i) (o'.under i) :=
  ⟨congrArg (List.map _) h.visited, congrArg (Option.map _) h.failure, h.agree⟩

theorem entered (h : Alike names o o') : Alike names o.entered o'.entered :=
  ⟨congrArg (List.cons _) h.visited, h.failure, h.agree⟩

theorem shift (h : Alike names o o') (n : Nat) : Alike names (o.shift n) (o'.shift n) :=
  ⟨congrArg (List.map _) h.visited, congrArg (Option.map _) h.failure, h.agree⟩

/-- Outcomes stay alike if the same is done after them wherever they agree. -/
theorem thenRun (h : Alike names o o') (hk : ∀ env env', AgreeOn names env env' → Alike names (k env) (k' env')) :
    Alike names (o.thenRun k) (o'.thenRun k') := by
  cases hfailure : o.failure with
  | some f =>
    rw [thenRun_of_failure hfailure, thenRun_of_failure (h.failure ▸ hfailure)]
    exact h
  | none =>
    rw [thenRun_of_success hfailure, thenRun_of_success (h.failure ▸ hfailure)]
    have hlater := hk _ _ h.agree
    refine ⟨?_, hlater.failure, hlater.agree⟩
    rw [andThen, andThen, h.visited, hlater.visited]

end Outcome.Alike

section Alike

variable {names : List String} {env env' : Env}

/-- One block, given what is known of the blocks inside it. -/
theorem Block.exec_alike {b : Block} (hnames : ∀ x ∈ b.names, x ∈ names) (h : AgreeOn names env env')
    (hchildren : ∀ env env', AgreeOn names env env' → Outcome.Alike names (run b.children env) (run b.children env')) :
    Outcome.Alike names (b.exec env) (b.exec env') := by
  have hagree : AgreeOn b.names env env' := h.mono hnames
  rw [exec_eq, exec_eq]
  rcases b.decided env with ⟨e, he⟩ | ⟨writes, shuts, hok, -⟩
  · rw [he env (AgreeOn.refl _ _), he env' hagree]
    exact ⟨rfl, rfl, h⟩
  · rw [hok env (AgreeOn.refl _ _), hok env' hagree]
    cases shuts with
    | true => exact ⟨rfl, rfl, h.storeAll writes⟩
    | false => exact (hchildren _ _ (h.storeAll writes)).entered

/-- **Two runs from environments that agree on the names of a program stay side by side.** -/
theorem run_alike {bs : List Block} (hnames : ∀ x ∈ mentioned bs, x ∈ names) (h : AgreeOn names env env') :
    Outcome.Alike names (run bs env) (run bs env') := by
  induction bs using Block.sequence_induction generalizing env env' with
  | nil =>
    rw [run_nil, run_nil]
    exact ⟨rfl, rfl, h⟩
  | cons b bs ihchildren ihbs =>
    simp only [mem_mentioned_cons] at hnames
    rw [run_cons, run_cons]
    refine ((Block.exec_alike (fun x hx => hnames x (.inl hx)) h ?_).under 0).thenRun ?_
    · exact fun env env' h => ihchildren (fun x hx => hnames x (.inr (.inl hx))) h
    · exact fun env env' h => (ihbs (fun x hx => hnames x (.inr (.inr hx))) h).shift 1

end Alike

/-! ## Other variables -/

/-- A block leaves alone what it does not mention. -/
theorem Block.get?_of_not_mem_names {b : Block} {env env' : Env} {shuts : Bool} {x : String}
    (h : b.effect env = .ok (env', shuts)) (hx : x ∉ b.names) : env'.get? x = env.get? x := by
  obtain ⟨writes, rfl, hwrites⟩ := exists_writes h
  apply Env.get?_storeAll_of_forall_ne
  rintro w hw rfl
  exact hx (hwrites w hw).1

theorem get?_run_of_not_mem_mentioned {bs : List Block} {x : String} (hx : x ∉ mentioned bs) (env : Env) :
    (run bs env).env.get? x = env.get? x := by
  refine run_preserves (P := fun env' => env'.get? x = env.get? x) ?_ rfl
  intro b hb env₁ env₂ shuts heffect h
  have hnames : x ∉ b.names := fun hmem => hx (List.mem_flatMap.2 ⟨b, hb, hmem⟩)
  exact (Block.get?_of_not_mem_names heffect hnames).trans h

/-- **A run sees and changes only the variables that its program mentions.** From environments that agree on them it
visits the same blocks and fails at the same block for the same reason, or not at all; the environments it leaves agree
on them again, and every other variable is, in each of the two, what it was. -/
theorem run_depends_on_mentioned (bs : List Block) (env₁ env₂ : Env)
    (h : ∀ x ∈ mentioned bs, env₁.get? x = env₂.get? x) :
    (run bs env₁).failure = (run bs env₂).failure ∧
      (run bs env₁).visited = (run bs env₂).visited ∧
      (∀ x ∈ mentioned bs, (run bs env₁).env.get? x = (run bs env₂).env.get? x) ∧
      ∀ x, x ∉ mentioned bs →
        (run bs env₁).env.get? x = env₁.get? x ∧ (run bs env₂).env.get? x = env₂.get? x := by
  have halike := run_alike (fun x hx => hx) h
  refine ⟨halike.failure, halike.visited, halike.agree, fun x hx => ?_⟩
  exact ⟨get?_run_of_not_mem_mentioned hx env₁, get?_run_of_not_mem_mentioned hx env₂⟩

/-- A program that mentions `total`, `price` and `n`, and the blank name behind the comma. -/
def invoice : List Block :=
  [.declare ["total, "], .cond "price" .gt "3" [.calculate "total" "price * n", .assign " n " "0"],
    .calculate "total" "total / n"]

theorem run_depends_on_mentioned_invoice :
    (run invoice (.ofList [("n", 2), ("other", 1), ("price", 5)])).failure = some ⟨[2], .expression .divisionByZero⟩ ∧
      (run invoice (.ofList [("n", 2), ("other", 1), ("price", 5)])).env.get? "total" = some 10 ∧
      (run invoice (.ofList [("price", 5), ("spare", 9), ("n", 2)])).env.get? "spare" = some 9 := by
  have hagree : ∀ x ∈ mentioned invoice, Env.get? (.ofList [("price", 5), ("spare", 9), ("n", 2)]) x =
      Env.get? (.ofList [("n", 2), ("other", 1), ("price", 5)]) x := by decide +kernel
  have hfailure : (run invoice (.ofList [("price", 5), ("spare", 9), ("n", 2)])).failure =
      some ⟨[2], .expression .divisionByZero⟩ := by decide +kernel
  have htotal : (run invoice (.ofList [("price", 5), ("spare", 9), ("n", 2)])).env.get? "total" = some 10 := by
    decide +kernel
  obtain ⟨hsame, -, hafter, hother⟩ := run_depends_on_mentioned invoice _ _ hagree
  exact ⟨hsame.symm.trans hfailure, (hafter "total" (by decide +kernel)).symm.trans htotal,
    (hother "spare" (by decide +kernel)).1⟩

end BlockScript
