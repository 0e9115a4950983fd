import BlockScript.Proofs.Diagnosis
import BlockScript.Proofs.Effects
import Mathlib.Data.List.Basic

/-!
# How an environment grows

What a run does to the variables is what the blocks that it visited and that did not fail do to them, one after the
other and each by itself (`acts_completedBlocks`). So it is enough to know single blocks: a declaration stores its
names, each of which comes last if it is new, and a block with a target stores under a name that is there already
(`Acts.names_eq`, `Acts.get?_eq`).

It follows that **a run keeps the names it finds, in their order, and adds the new ones in the order in which they are
first declared** (`run_grows`). A name that a run misses has not been declared by then, neither before the run nor in
it.
-/

namespace BlockScript

open Program (get?)
open Text (trim)

/-! ## Names in order -/

namespace Env

/-- The names `old`, and behind them the names of `new` that are not among them, each where it first comes. -/
def extend (old new : List String) : List String := old ++ (new.filter (· ∉ old)).eraseDups

variable {old new : List String} {x : String}

theorem extend_of_subset (h : ∀ x ∈ new, x ∈ old) : extend old new = old := by
  have hnone : new.filter (· ∉ old) = [] := List.filter_eq_nil_iff.2 fun x hx => by simpa using h x hx
  rw [extend, hnone, List.eraseDups_nil, List.append_nil]

theorem mem_extend : x ∈ extend old new ↔ x ∈ old ∨ x ∈ new := by
  by_cases hx : x ∈ old
  · simp [extend, hx]
  · simp [extend, hx]

theorem extend_append (old xs ys : List String) : extend old (xs ++ ys) = extend (extend old xs) ys := by
  have hfilter : (ys.filter (· ∉ old)).removeAll (xs.filter (· ∉ old)) = ys.filter (· ∉ extend old xs) := by
    rw [List.removeAll, List.filter_filter]
    apply List.filter_congr
    intro y _
    by_cases hy : y ∈ old
    · simp [mem_extend, hy]
    · simp [mem_extend, hy]
  rw [extend, extend, List.filter_append, List.eraseDups_append, hfilter, extend, List.append_assoc]

theorem extend_singleton (old : List String) (x : String) :
    extend old [x] = if x ∈ old then old else old ++ [x] := by
  by_cases hx : x ∈ old
  · simp [extend, hx]
  · simp [extend, hx, List.eraseDups_cons]

theorem names_storeAll (env : Env) (writes : List (String × Value)) :
    (env.storeAll writes).names = extend env.names (writes.map Prod.fst) := by
  induction writes generalizing env with
  | nil => exact (extend_of_subset (List.forall_mem_nil _)).symm
  | cons w writes ih =>
    rw [storeAll_cons, ih, names_insert, ← extend_singleton, ← extend_append, List.map_cons, List.singleton_append]

end Env

/-! ## Single blocks -/

namespace Block

/-- The names that a block declares. -/
def declared : Block → List String
  | declare entries => declaredNames entries
  | _ => []

/-- The name under which a block stores a value, if it is one that does. -/
def target? : Block → Option String
  | assign target _ | calculate target _ => some (trim target)
  | _ => none

end Block

section Effects

variable {env env' : Env} {target literal expression : String}

theorem execDeclare_eq_ok {entries : List String} (h : execDeclare entries env = .ok env') :
    env' = env.storeAll ((declaredNames entries).map (·, 0)) := by
  rw [execDeclare] at h
  split at h
  · cases h
  · cases h
    exact Env.foldl_declare env _

/-- What is stored is stored under a name that is declared. -/
theorem Env.set_eq_ok {name : String} {v : Value} (h : env.set name v = .ok env') :
    env.isDeclared name = true ∧ env' = env.storeAll [(name, v)] := by
  cases hdeclared : env.isDeclared name with
  | false =>
    rw [Env.set, hdeclared] at h
    cases h
  | true =>
    rw [Env.set_of_isDeclared hdeclared] at h
    cases h
    exact ⟨rfl, rfl⟩

theorem execAssign_eq_ok (h : execAssign target literal env = .ok env') :
    env' = env ∨ ∃ v, env.isDeclared (trim target) = true ∧ env' = env.storeAll [(trim target, v)] := by
  rw [execAssign, execAssignWith] at h
  split at h
  · cases h
    exact .inl rfl
  · split at h
    · cases h
    · split at h
      · cases h
      · exact .inr ⟨_, Env.set_eq_ok h⟩

theorem execCalculate_eq_ok (h : execCalculate target expression env = .ok env') :
    ∃ v, env.isDeclared (trim target) = true ∧ env' = env.storeAll [(trim target, v)] := by
  rw [execCalculate, execCalculateWith] at h
  split at h
  · cases h
  · split at h
    · cases h
    · split at h
      · cases h
      · obtain ⟨v, -, hset⟩ := bind_eq_ok_iff.1 h
        exact ⟨v, Env.set_eq_ok hset⟩

/-- A block that does not fail declares its names, or stores a value under its target, which is declared. -/
theorem Block.effect_eq_ok {b : Block} {shuts : Bool} (h : b.effect env = .ok (env', shuts)) :
    env' = env.storeAll (b.declared.map (·, 0)) ∨
      ∃ x v, b.target? = some x ∧ b.declared = [] ∧ env.isDeclared x = true ∧ env' = env.storeAll [(x, v)] := by
  cases b with
  | declare entries =>
    rw [effect] at h
    obtain ⟨env₁, hexec, heq⟩ := map_eq_ok_iff.1 h
    cases heq
    exact .inl (execDeclare_eq_ok hexec)
  | assign target literal =>
    rw [effect] at h
    obtain ⟨env₁, hexec, heq⟩ := map_eq_ok_iff.1 h
    cases heq
    rcases execAssign_eq_ok hexec with rfl | ⟨v, hdeclared, rfl⟩
    · exact .inl rfl
    · exact .inr ⟨trim target, v, rfl, rfl, hdeclared, rfl⟩
  | calculate target expression =>
    rw [effect] at h
    obtain ⟨env₁, hexec, heq⟩ := map_eq_ok_iff.1 h
    cases heq
    obtain ⟨v, hdeclared, rfl⟩ := execCalculate_eq_ok hexec
    exact .inr ⟨trim target, v, rfl, rfl, hdeclared, rfl⟩
  | cond lhs op rhs body =>
    rw [effect] at h
    obtain ⟨holds, -, heq⟩ := map_eq_ok_iff.1 h
    cases heq
    exact .inl rfl

/-- The names that a block declares come behind the others, and no other block brings in a name. -/
theorem Block.names_of_effect {b : Block} {shuts : Bool} (h : b.effect env = .ok (env', shuts)) :
    env'.names = Env.extend env.names b.declared := by
  rcases effect_eq_ok h with rfl | ⟨x, v, -, hnone, hdeclared, rfl⟩
  · rw [Env.names_storeAll, List.map_map]
    exact congrArg (Env.extend env.names) (List.map_id _)
  · have hx : x ∈ env.names := Env.isDeclared_iff.1 hdeclared
    rw [Env.names_storeAll, hnone, Env.extend_of_subset (List.forall_mem_nil _)]
    exact Env.extend_of_subset (List.forall_mem_singleton.2 hx)

theorem Block.get?_of_effect {b : Block} {shuts : Bool} {x : String} (h : b.effect env = .ok (env', shuts))
    (hdeclared : x ∉ b.declared) (htarget : b.target? ≠ some x) : env'.get? x = env.get? x := by
  rcases effect_eq_ok h with rfl | ⟨y, v, hy, -, -, rfl⟩
  · apply Env.get?_storeAll_of_forall_ne
    rintro w hw rfl
    obtain ⟨y, hy, rfl⟩ := List.mem_map.1 hw
    exact hdeclared hy
  · apply Env.get?_storeAll_of_forall_ne
    rintro w hw rfl
    rw [List.mem_singleton.1 hw] at htarget
    exact htarget hy

/-- A block that misses a name does so because the name is not declared, and declares none itself. -/
theorem Block.isDeclared_of_misses {b : Block} {err : RunError} {x : String} (h : b.effect env = .error err)
    (hmisses : err = .undeclaredVariable x ∨ err = .expression (.unknownSymbol x)) :
    env.isDeclared x = false ∧ b.declared = [] := by
  rcases hmisses with rfl | rfl
  · have hfits := effect_eq_error_iff.1 h
    cases b with
    | declare entries =>
      obtain ⟨_, _, _, -, -, -, herr⟩ := hfits
      cases herr
    | assign target literal =>
      obtain ⟨-, ⟨hundeclared, herr⟩ | ⟨-, -, herr⟩⟩ := hfits <;> cases herr
      exact ⟨hundeclared, rfl⟩
    | calculate target expression =>
      rcases hfits with ⟨-, herr⟩ | ⟨-, -, herr⟩ | ⟨-, -, ⟨hundeclared, herr⟩ | ⟨-, e, -, herr⟩⟩ <;> cases herr
      exact ⟨hundeclared, rfl⟩
    | cond lhs op rhs body =>
      rcases hfits with ⟨-, herr⟩ | ⟨-, -, herr⟩ | ⟨-, -, ⟨e, -, herr⟩ | ⟨-, e, -, herr⟩⟩ <;> cases herr
  · obtain ⟨source, hfails⟩ := exists_failsOn h
    refine ⟨?_, by cases hfails <;> rfl⟩
    rw [Env.isDeclared, calculate_eq_unknown hfails.calculate_eq]
    rfl

end Effects

/-! ## Blocks that act one after the other -/

/-- The blocks do what they do by themselves, in order and without an error, and lead from one environment to the other.
-/
inductive Acts : Env → List Block → Env → Prop where
  | nil (env : Env) : Acts env [] env
  | cons {env env' env'' : Env} {b : Block} {bs : List Block} {shuts : Bool}
      (heffect : b.effect env = .ok (env', shuts)) (h : Acts env' bs env'') : Acts env (b :: bs) env''

namespace Acts

variable {env env' env'' : Env} {as bs : List Block}

theorem append (ha : Acts env as env') (hb : Acts env' bs env'') : Acts env (as ++ bs) env'' := by
  induction ha with
  | nil env => exact hb
  | cons heffect _ ih => exact .cons heffect (ih hb)

/-- New names come behind the old ones, in the order of their declaration. -/
theorem names_eq (h : Acts env bs env') : env'.names = Env.extend env.names (bs.flatMap Block.declared) := by
  induction h with
  | nil env => exact (Env.extend_of_subset (List.forall_mem_nil _)).symm
  | cons heffect _ ih => rw [ih, Block.names_of_effect heffect, List.flatMap_cons, Env.extend_append]

/-- A variable that no block declares or has as its target keeps its value. -/
theorem get?_eq (h : Acts env bs env') {x : String} (hx : ∀ b ∈ bs, x ∉ b.declared ∧ b.target? ≠ some x) :
    env'.get? x = env.get? x := by
  induction h with
  | nil env => rfl
  | cons heffect _ ih =>
    obtain ⟨hdeclared, htarget⟩ := hx _ List.mem_cons_self
    rw [ih fun c hc => hx c (List.mem_cons_of_mem _ hc), Block.get?_of_effect heffect hdeclared htarget]

end Acts

/-! ## Blocks that a run completes -/

/-- The paths that were visited, but for the one that failed. -/
def Outcome.completed (o : Outcome) : List Path := o.visited.filter fun p => o.failure.map Failure.path ≠ some p

/-- The blocks that a run visits and that do not fail, in the order of the run. -/
def completedBlocks (bs : List Block) (env : Env) : List Block := (run bs env).completed.filterMap (get? ⟨bs⟩)

namespace Outcome

theorem completed_of_success {o : Outcome} (h : o.failure = none) : o.completed = o.visited := by
  rw [completed, h]
  exact List.filter_eq_self.2 fun p _ => by simp

/-- What is completed moves along with the paths, if they stay apart. -/
theorem completed_map {g : Path → Path} (hg : ∀ p q, g p = g q ↔ p = q) (o : Outcome) :
    completed ⟨o.env, o.visited.map g, o.failure.map fun f => { f with path := g f.path }⟩ = o.completed.map g := by
  obtain ⟨env, visited, failure⟩ := o
  cases failure with
  | none => rw [completed_of_success rfl, completed_of_success rfl]
  | some f => simp [completed, List.filter_map, Function.comp_def, hg]

theorem completed_under (i : Nat) (o : Outcome) : (o.under i).completed = o.completed.map (i :: ·) :=
  completed_map (by simp) o

theorem completed_shift (n : Nat) (o : Outcome) : (o.shift n).completed = o.completed.map (Path.shift n) := by
  refine completed_map ?_ o
  intro p q
  cases p <;> cases q <;> simp [Path.shift]

theorem completed_entered {o : Outcome} (h : ∀ f, o.failure = some f → f.path ≠ []) :
    o.entered.completed = [] :: o.completed := by
  obtain ⟨env, visited, failure⟩ := o
  cases failure with
  | none => rw [completed_of_success rfl, completed_of_success rfl, entered]
  | some f => simp [completed, entered, h f rfl]

/-- What was visited before is completed, if the failing block is not among it. -/
theorem completed_andThen {o later : Outcome} (h : o.failure = none)
    (hlater : ∀ f, later.failure = some f → f.path ∉ o.visited) :
    (o.andThen later).completed = o.completed ++ later.completed := by
  have hearly : o.visited.filter (fun p => later.failure.map Failure.path ≠ some p) = o.visited := by
    rw [List.filter_eq_self]
    intro p hp
    cases hfailure : later.failure with
    | none => simp
    | some f =>
      have hne : f.path ≠ p := fun heq => hlater f hfailure (heq ▸ hp)
      simpa using hne
  rw [completed_of_success h, completed, andThen, List.filter_append, hearly, completed]

/-- A block that does not fail and what comes behind it complete what each of them does. -/
theorem completed_under_andThen_shift {o : Outcome} (h : o.failure = none) (later : Outcome) :
    ((o.under 0).andThen (later.shift 1)).completed =
      o.completed.map (0 :: ·) ++ later.completed.map (Path.shift 1) := by
  have hunder : (o.under 0).failure = none := congrArg (Option.map _) h
  rw [completed_andThen hunder, completed_under, completed_shift]
  intro f hf hmem
  obtain ⟨⟨path, e⟩, -, rfl⟩ := Option.map_eq_some_iff.1 hf
  obtain ⟨q, -, hq⟩ := List.mem_map.1 hmem
  cases path <;> cases hq

end Outcome

section Completed

variable {env : Env} {bs : List Block} {p : Path}

theorem mem_completedBlocks_iff {b : Block} : b ∈ completedBlocks bs env ↔
    ∃ p ∈ (run bs env).visited, (run bs env).failure.map Failure.path ≠ some p ∧ get? ⟨bs⟩ p = some b := by
  simp [completedBlocks, Outcome.completed, and_assoc]

theorem Program.get?_shift (b : Block) (bs : List Block) (p : Path) : get? ⟨b :: bs⟩ (p.shift 1) = get? ⟨bs⟩ p := by
  cases p <;> rfl

/-- What a single block and the blocks inside it do, given what is known of those. -/
theorem Block.acts_exec {b : Block} (env : Env)
    (hchildren : ∀ env, Acts env (completedBlocks b.children env) (run b.children env).env) :
    Acts env ((b.exec env).completed.filterMap b.descend?) (b.exec env).env := by
  rw [exec_eq]
  cases he : b.effect env with
  | error e =>
    have hnone : (proceed env b.children (.error e)).completed = [] := by simp [proceed, Outcome.completed]
    rw [hnone]
    exact .nil env
  | ok r =>
    obtain ⟨env', shuts⟩ := r
    cases shuts with
    | true => exact .cons he (.nil env')
    | false =>
      have hfailure : ∀ f, (run b.children env').failure = some f → f.path ≠ [] := fun _ => path_ne_nil_of_failure
      have hinside : (run b.children env').completed.filterMap b.descend? = completedBlocks b.children env' := by
        apply List.filterMap_congr
        intro p hp
        obtain ⟨i, q, rfl⟩ := List.exists_cons_of_ne_nil (ne_nil_of_mem_visited (List.mem_filter.1 hp).1)
        exact Program.descend?_cons b i q
      have hself : b.descend? [] = some b := rfl
      change Acts env ((run b.children env').entered.completed.filterMap b.descend?) (run b.children env').env
      rw [Outcome.completed_entered hfailure, List.filterMap_cons_some hself, hinside]
      exact .cons he (hchildren env')

/-- **What a run does to the variables is what the blocks that it completes do to them one after the other.** -/
theorem acts_completedBlocks (bs : List Block) (env : Env) : Acts env (completedBlocks bs env) (run bs env).env := by
  induction bs using Block.sequence_induction generalizing env with
  | nil =>
    rw [completedBlocks, run_nil]
    exact .nil env
  | cons b bs ihchildren ihbs =>
    have hblock : Acts env (((b.exec env).completed.map (0 :: ·)).filterMap (get? ⟨b :: bs⟩)) (b.exec env).env := by
      rw [List.filterMap_map]
      exact Block.acts_exec env ihchildren
    rw [completedBlocks]
    cases hfailure : (b.exec env).failure with
    | some f =>
      rw [run_cons_of_failure bs hfailure, Outcome.completed_under]
      exact hblock
    | none =>
      have hget : get? ⟨b :: bs⟩ ∘ Path.shift 1 = get? ⟨bs⟩ := funext (Program.get?_shift b bs)
      rw [run_cons_of_success bs hfailure, Outcome.completed_under_andThen_shift hfailure, List.filterMap_append]
      refine hblock.append ?_
      rw [List.filterMap_map, hget]
      exact ihbs (b.exec env).env

end Completed

/-- **A run only adds names, in the order of their first declaration.** Behind the names it finds, which stay where they
are, come those that the blocks it completes declare, each once and where it first comes. A variable keeps its value
unless one of these blocks declares it or has it as its target. And if a run fails because it misses a name, the name
was not there before, and no declaration that the run has visited holds it. -/
theorem run_grows (bs : List Block) (env : Env) :
    (run bs env).env.names =
        env.names ++ (((completedBlocks bs env).flatMap Block.declared).filter (· ∉ env.names)).eraseDups ∧
      (run bs env).env.names.Nodup ∧
      (∀ x, (∀ b ∈ completedBlocks bs env, x ∉ b.declared ∧ b.target? ≠ some x) →
        (run bs env).env.get? x = env.get? x) ∧
      ∀ f x, (run bs env).failure = some f →
        f.error = .undeclaredVariable x ∨ f.error = .expression (.unknownSymbol x) →
          x ∉ env.names ∧ ∀ p ∈ (run bs env).visited, ∀ entries, get? ⟨bs⟩ p = some (.declare entries) →
            x ∉ declaredNames entries := by
  have hacts := acts_completedBlocks bs env
  have hnames := hacts.names_eq
  refine ⟨hnames, (run bs env).env.nodup, fun x hx => hacts.get?_eq hx, ?_⟩
  intro f x hfailure hmisses
  obtain ⟨b, -, hget, heffect⟩ := exists_reaches hfailure
  obtain ⟨hundeclared, hnone⟩ := Block.isDeclared_of_misses heffect hmisses
  have hmissing : ¬ (x ∈ env.names ∨ x ∈ (completedBlocks bs env).flatMap Block.declared) := by
    rw [← Env.mem_extend, ← hnames, ← Env.isDeclared_iff, hundeclared]
    exact Bool.false_ne_true
  refine ⟨fun hx => hmissing (.inl hx), fun p hp entries hdeclare hx => ?_⟩
  -- the declaration is not the block that failed, so it was completed, and its names have been there since
  have hne : f.path ≠ p := by
    rintro rfl
    rw [hget] at hdeclare
    cases hdeclare
    rw [show declaredNames entries = [] from hnone] at hx
    cases hx
  have hcompleted : .declare entries ∈ completedBlocks bs env :=
    mem_completedBlocks_iff.2 ⟨p, hp, by simpa [hfailure] using hne, hdeclare⟩
  exact hmissing (.inr (List.mem_flatMap.2 ⟨_, hcompleted, hx⟩))

/-- A program that declares a name again, which shuts a later condition, and that misses a name declared too late. -/
def ledger : List Block :=
  [.declare ["b, a", "b"], .assign "a" "5", .cond "a" .gt "0" [.declare ["c", " a "], .calculate "old" "c + 1"],
    .cond "a" .gt "0" [.declare ["d"]], .declare ["e"], .assign "late" "1", .declare ["late"]]

theorem run_grows_ledger :
    (run ledger (.ofList [("old", 7), ("kept", 3)])).env.names = ["old", "kept", "b", "a", "c", "e"] ∧
      (run ledger (.ofList [("old", 7), ("kept", 3)])).env.get? "kept" = some 3 ∧
      (run ledger (.ofList [("old", 7), ("kept", 3)])).failure = some ⟨[5], .undeclaredVariable "late"⟩ ∧
      "late" ∉ declaredNames ["c", " a "] := by
  have hfailure : (run ledger (.ofList [("old", 7), ("kept", 3)])).failure =
      some ⟨[5], .undeclaredVariable "late"⟩ := by decide +kernel
  have hvisited : [2, 0] ∈ (run ledger (.ofList [("old", 7), ("kept", 3)])).visited := by decide +kernel
  obtain ⟨hnames, -, hkept, hlate⟩ := run_grows ledger (.ofList [("old", 7), ("kept", 3)])
  exact ⟨hnames.trans (by decide +kernel), (hkept "kept" (by decide +kernel)).trans rfl, hfailure,
    (hlate _ "late" hfailure (.inl rfl)).2 [2, 0] hvisited _ rfl⟩

end BlockScript
