import BlockScript.Proofs.Composition
import BlockScript.Proofs.Placement

/-!
# Where a run stops

A run that fails has got to one block and no further. `Reaches env bs p env'` says how it got there: past all blocks
that come before the path `p`, and into the conditions around it, which hold. A failing run has reached the block it
names, with the environment it leaves (`exists_reaches`), and conversely the block that is reached decides the rest of
the run (`Reaches.run_eq`).

Whether a path is reached depends on nothing but the blocks before it (`Block.before`, `Reaches.of_before_eq`). So **a
failing run is the run of the blocks before the failure, which succeeds, and then the failing block by itself**, and
what stands behind that block or inside it can be exchanged at will (`run_stops`).
-/

namespace BlockScript

open Program (get?)

/-! ## The blocks before a path -/

/-- What comes before a path: the blocks before it in its sequence and, around it, the conditions it is in with what
comes before it in their bodies. -/
def Block.before : Path → List Block → List Block
  | [], _ => []
  | [i], bs => bs.take i
  | i :: p, bs =>
    match bs[i]? with
    | some (.cond lhs op rhs body) => bs.take i ++ [.cond lhs op rhs (before p body)]
    | _ => bs.take i

namespace Block

theorem before_zero (bs : List Block) : before [0] bs = [] := rfl

theorem before_cond (lhs : String) (op : Comparison) (rhs : String) (body bs : List Block) (i : Nat) (p : Path) :
    before (0 :: i :: p) (.cond lhs op rhs body :: bs) = [.cond lhs op rhs (before (i :: p) body)] := rfl

theorem before_succ (i : Nat) (p : Path) (b : Block) (bs : List Block) :
    before ((i + 1) :: p) (b :: bs) = b :: before (i :: p) bs := by
  cases p with
  | nil => rfl
  | cons j p =>
    rw [before, before, List.getElem?_cons_succ]
    · split <;> rfl
    · nofun
    · nofun

/-! ## What a block does to a run -/

variable {b : Block} {env : Env} {e : RunError}

/-- A block that fails by itself leaves the environment as it was. -/
theorem exec_of_error (h : b.effect env = .error e) : b.exec env = ⟨env, [[]], some ⟨[], e⟩⟩ := by
  rw [exec_eq, h]
  rfl

theorem exec_cond_of_holds {lhs rhs : String} {op : Comparison} (h : condition lhs op rhs env = .ok true)
    (body : List Block) : (cond lhs op rhs body).exec env = (run body env).entered := by
  rw [exec, h]
  rfl

/-- A block fails by itself, or it is a condition that holds and a block of its body fails. -/
theorem exec_failure {f : Failure} (h : (b.exec env).failure = some f) : (∃ e, b.effect env = .error e) ∨
    ∃ lhs op rhs body, b = .cond lhs op rhs body ∧ condition lhs op rhs env = .ok true := by
  rw [exec_eq] at h
  cases he : b.effect env with
  | error e => exact .inl ⟨e, rfl⟩
  | ok r =>
    right
    rw [he] at h
    obtain ⟨env', shuts⟩ := r
    cases shuts with
    | true => cases h
    | false =>
      cases b with
      | declare _ | assign _ _ | calculate _ _ =>
        rw [proceed, show children _ = [] from rfl, execFrom_nil] at h
        cases h
      | cond lhs op rhs body =>
        refine ⟨lhs, op, rhs, body, rfl, ?_⟩
        rw [effect] at he
        cases hc : condition lhs op rhs env with
        | error e => rw [hc] at he; cases he
        | ok holds =>
          rw [hc] at he
          cases holds with
          | true => rfl
          | false => cases he

/-- What a block does by itself has nothing to do with what is inside it. -/
theorem effect_bare (env : Env) (b : Block) : b.bare.effect env = b.effect env := by
  cases b <;> rfl

end Block

open Block (before before_zero before_cond before_succ)

/-! ## Blocks that are reached -/

/-- A run that starts in `env` gets to the block at a path and finds the environment `env'` there. -/
inductive Reaches : Env → List Block → Path → Env → Prop where
  | here (env : Env) (b : Block) (bs : List Block) : Reaches env (b :: bs) [0] env
  | inside {env env' : Env} {lhs rhs : String} {op : Comparison} {body : List Block} {p : Path} (bs : List Block)
      (hholds : condition lhs op rhs env = .ok true) (h : Reaches env body p env') :
      Reaches env (.cond lhs op rhs body :: bs) (0 :: p) env'
  | later {env env' : Env} {b : Block} {bs : List Block} {i : Nat} {p : Path} (hpast : (b.exec env).failure = none)
      (h : Reaches (b.exec env).env bs (i :: p) env') : Reaches env (b :: bs) ((i + 1) :: p) env'

namespace Reaches

variable {env env' : Env} {bs bs' : List Block} {p : Path} {b b' : Block}

theorem exists_cons (h : Reaches env bs p env') : ∃ i q, p = i :: q := by
  cases h with
  | here => exact ⟨0, [], rfl⟩
  | inside => exact ⟨0, _, rfl⟩
  | later => exact ⟨_, _, rfl⟩

/-- The blocks before a path that is reached run to their end. -/
theorem run_before (h : Reaches env bs p env') :
    (run (before p bs) env).failure = none ∧ (run (before p bs) env).env = env' := by
  induction h with
  | here env b bs =>
    rw [before_zero, run_nil]
    exact ⟨rfl, rfl⟩
  | inside bs hholds h ih =>
    obtain ⟨i, q, rfl⟩ := h.exists_cons
    rw [before_cond, run_singleton, Block.exec_cond_of_holds hholds]
    exact ⟨congrArg (Option.map _) ih.1, ih.2⟩
  | later hpast h ih =>
    rw [before_succ, run_cons_of_success _ hpast]
    exact ⟨congrArg (Option.map _) ih.1, ih.2⟩

/-- A run that reaches a block which fails is the run of the blocks before it, and then ends there. -/
theorem run_eq {e : RunError} (h : Reaches env bs p env') (hget : get? ⟨bs⟩ p = some b)
    (he : b.effect env' = .error e) : run bs env = (run (before p bs) env).andThen ⟨env', [p], some ⟨p, e⟩⟩ := by
  induction h with
  | here env a bs =>
    cases hget
    rw [before_zero, run_nil, run_cons, Block.exec_of_error he]
    rfl
  | @inside env env' lhs rhs op body p bs hholds h ih =>
    obtain ⟨i, q, rfl⟩ := h.exists_cons
    have hbody : get? ⟨body⟩ (i :: q) = some b := (Program.descend?_cons (.cond lhs op rhs body) i q).symm.trans hget
    rw [before_cond, run_singleton, run_cons, Block.exec_cond_of_holds hholds, Block.exec_cond_of_holds hholds,
      ih hbody he]
    simp [Outcome.thenRun, Outcome.andThen, Outcome.entered, Outcome.under]
  | @later env env' a bs i p hpast h ih =>
    rw [before_succ, run_cons_of_success _ hpast, run_cons_of_success _ hpast, ih hget he]
    simp [Outcome.andThen, Outcome.shift, Path.shift]

/-- Whether a path is reached can be read off the blocks before it. -/
theorem of_before_eq (h : Reaches env bs p env') (hbefore : before p bs' = before p bs)
    (hget : get? ⟨bs'⟩ p = some b') : Reaches env bs' p env' := by
  induction h generalizing bs' with
  | here env b bs =>
    cases bs' with
    | nil => cases hget
    | cons b' bs' => exact .here env b' bs'
  | @inside env env' lhs rhs op body p bs hholds h ih =>
    obtain ⟨i, q, rfl⟩ := h.exists_cons
    cases bs' with
    | nil => cases hget
    | cons a bs' =>
      have hchildren : get? ⟨a.children⟩ (i :: q) = some b' := (Program.descend?_cons a i q).symm.trans hget
      cases a with
      | declare _ | assign _ _ | calculate _ _ => cases hchildren
      | cond lhs' op' rhs' body' =>
        rw [before_cond, before_cond] at hbefore
        injection hbefore with hcond
        injection hcond with hlhs hop hrhs hbody
        subst hlhs hop hrhs
        exact .inside bs' hholds (ih hbody hchildren)
  | @later env env' a bs i p hpast h ih =>
    cases bs' with
    | nil => cases hget
    | cons a' bs' =>
      rw [before_succ, before_succ] at hbefore
      injection hbefore with ha hbs
      subst ha
      exact .later hpast (ih hbs hget)

end Reaches

/-- A run that fails has reached the block it names, which fails by itself in the environment that is left. -/
theorem exists_reaches {bs : List Block} {env : Env} {f : Failure} (h : (run bs env).failure = some f) :
    ∃ b, Reaches env bs f.path (run bs env).env ∧ get? ⟨bs⟩ f.path = some b ∧
      b.effect (run bs env).env = .error f.error := by
  induction bs using Block.sequence_induction generalizing env f with
  | nil =>
    rw [run_nil] at h
    cases h
  | cons b bs ihchildren ihbs =>
    cases hfailure : (b.exec env).failure with
    | none =>
      rw [run_cons_of_success bs hfailure] at h ⊢
      obtain ⟨g, hg, rfl⟩ := Option.map_eq_some_iff.1 h
      obtain ⟨c, hreaches, hget, heffect⟩ := ihbs hg
      obtain ⟨i, q, hq⟩ := hreaches.exists_cons
      rw [hq] at hreaches hget
      simp only [hq, Path.shift]
      exact ⟨c, .later hfailure hreaches, hget, heffect⟩
    | some g =>
      rw [run_cons_of_failure bs hfailure] at h ⊢
      obtain rfl : f = ⟨0 :: g.path, g.error⟩ := by
        rw [Outcome.under, hfailure] at h
        cases h
        rfl
      rcases Block.exec_failure hfailure with ⟨e, he⟩ | ⟨lhs, op, rhs, body, rfl, hholds⟩
      · rw [Block.exec_of_error he] at hfailure ⊢
        cases hfailure
        exact ⟨b, .here env b bs, rfl, he⟩
      · rw [Block.exec_cond_of_holds hholds] at hfailure ⊢
        obtain ⟨c, hreaches, hget, heffect⟩ := ihchildren hfailure
        obtain ⟨i, q, hq⟩ := hreaches.exists_cons
        rw [hq] at hreaches hget ⊢
        exact ⟨c, .inside bs hholds hreaches, (Program.descend?_cons (.cond lhs op rhs body) i q).trans hget, heffect⟩

/-- **A run stops at one block.** The blocks before it run to their end and leave the environment that the failing run
leaves, the block fails by itself there and changes nothing, and any other blocks with the same ones before that path
and with a block there that differs in its body at most run in the same way. -/
theorem run_stops (bs : List Block) (env : Env) (p : Path) (err : RunError)
    (h : (run bs env).failure = some ⟨p, err⟩) :
    run (before p bs) env = ⟨(run bs env).env, (run bs env).visited.dropLast, none⟩ ∧
      (run bs env).visited.getLast? = some p ∧
      ∃ b, get? ⟨bs⟩ p = some b ∧
        run [b] (run bs env).env = ⟨(run bs env).env, [[0]], some ⟨[0], err⟩⟩ ∧
        ∀ bs' b', before p bs' = before p bs → get? ⟨bs'⟩ p = some b' → b'.bare = b.bare →
          run bs' env = run bs env := by
  obtain ⟨b, hreaches, hget, heffect⟩ := exists_reaches h
  have hrun := hreaches.run_eq hget heffect
  obtain ⟨hfailure, henv⟩ := hreaches.run_before
  have hvisited : (run bs env).visited = (run (before p bs) env).visited ++ [p] := by rw [hrun]; rfl
  refine ⟨?_, ?_, b, hget, ?_, ?_⟩
  · rw [hvisited, List.dropLast_concat, ← hfailure, ← henv]
  · rw [hvisited, List.getLast?_concat]
  · rw [run_singleton, Block.exec_of_error heffect]
    rfl
  · intro bs' b' hbefore hget' hbare
    have heffect' : b'.effect (run bs env).env = .error err := by
      rw [← Block.effect_bare, hbare, Block.effect_bare, heffect]
    rw [(hreaches.of_before_eq hbefore hget').run_eq hget' heffect', hbefore]
    exact hrun.symm

/-- A program in which a condition cannot be computed, inside a condition that holds. -/
def halted : List Block :=
  [.declare ["x"], .cond "1" .lt "2" [.calculate "x" "7", .cond "x" .eq "x / 0" [.assign "x" "1"], .declare ["w"]],
    .declare ["v"]]

/-- The same up to the failing condition, with another body there and nothing behind it. -/
def haltedShort : List Block :=
  [.declare ["x"], .cond "1" .lt "2" [.calculate "x" "7", .cond "x" .eq "x / 0" [.declare ["y"], .declare ["z"]]]]

theorem run_stops_halted :
    (run halted .empty).failure = some ⟨[1, 1], .expression .divisionByZero⟩ ∧
      (run (before [1, 1] halted) .empty).env = .ofList [("x", 7)] ∧
      run haltedShort .empty = run halted .empty := by
  have hfailure : (run halted .empty).failure = some ⟨[1, 1], .expression .divisionByZero⟩ := by decide +kernel
  have henv : (run halted .empty).env = .ofList [("x", 7)] := by decide +kernel
  obtain ⟨hbefore, -, b, hget, -, hsame⟩ := run_stops halted .empty _ _ hfailure
  cases hget
  exact ⟨hfailure, by rw [hbefore, henv], hsame haltedShort _ rfl rfl rfl⟩

end BlockScript
