import BlockScript.Proofs.Preorder
import BlockScript.Run.Exec

/-!
# A run as a scan of the walk

Running a program is a recursion on its blocks. The same run is had by going through the walk of the program from left
to right (`scan`): blocks inside a condition that did not hold are passed over, every other block is noted and does what
it does by itself (`Block.effect`), and the first error ends the scan.

The step from one to the other is `scan_preorderFrom`: scanning the visits of a sequence, and whatever comes behind
them, is running the sequence and scanning the rest. It is proved by induction on the sequence; the paths that are shut
when the sequence begins lie neither around it nor in it (`Open`), and those that are shut inside it do not reach behind
it. The headline is `run_scans_walk`.
-/

namespace BlockScript

open Block (preorderFrom preorderFrom_cons preorderFrom_nil exists_of_mem_preorderFrom execFrom)

/-! ## The scan -/

/-- What a block does by itself: the environment behind it, and whether it is a condition that does not hold. -/
def Block.effect (env : Env) : Block → Except RunError (Env × Bool)
  | .declare names => (execDeclare names env).map (·, false)
  | .assign target literal => (execAssign target literal env).map (·, false)
  | .calculate target expression => (execCalculate target expression env).map (·, false)
  | .cond lhs op rhs _ => (condition lhs op rhs env).map fun holds => (env, !holds)

/-- The outcome with one more block visited before all others. -/
def Outcome.visiting (p : Path) (o : Outcome) : Outcome := { o with visited := p :: o.visited }

/-- Goes through the visits of a walk in order. Blocks strictly inside one at a path of `shut` are passed over. -/
def scan (shut : List Path) (env : Env) : List (Path × Block) → Outcome
  | [] => ⟨env, [], none⟩
  | (p, b) :: visits =>
    if shut.any p.isInside then scan shut env visits
    else match b.effect env with
      | .error e => ⟨env, [p], some ⟨p, e⟩⟩
      | .ok (env', shuts) => (scan (if shuts then p :: shut else shut) env' visits).visiting p

section Scan

variable {shut shut' : List Path} {env env' : Env} {p : Path} {b : Block} {vs rest : List (Path × Block)}

theorem scan_cons_passed (h : shut.any p.isInside = true) : scan shut env ((p, b) :: vs) = scan shut env vs := by
  rw [scan, if_pos h]

theorem scan_cons_error {e : RunError} (h : shut.any p.isInside = false) (he : b.effect env = .error e) :
    scan shut env ((p, b) :: vs) = ⟨env, [p], some ⟨p, e⟩⟩ := by
  rw [scan, if_neg (by rw [h]; nofun), he]

theorem scan_cons_ok {shuts : Bool} (h : shut.any p.isInside = false) (he : b.effect env = .ok (env', shuts)) :
    scan shut env ((p, b) :: vs) = (scan (if shuts then p :: shut else shut) env' vs).visiting p := by
  rw [scan, if_neg (by rw [h]; nofun), he]

/-- Only what the shut paths say about the visits to come matters. -/
theorem scan_congr (h : ∀ v ∈ vs, shut.any v.1.isInside = shut'.any v.1.isInside) (env : Env) :
    scan shut env vs = scan shut' env vs := by
  induction vs generalizing shut shut' env with
  | nil => rfl
  | cons v vs ih =>
    obtain ⟨p, b⟩ := v
    have hhead : shut.any p.isInside = shut'.any p.isInside := h (p, b) List.mem_cons_self
    have htail : ∀ v ∈ vs, shut.any v.1.isInside = shut'.any v.1.isInside :=
      fun v hv => h v (List.mem_cons_of_mem _ hv)
    cases hp : shut'.any p.isInside with
    | true => rw [scan_cons_passed (hhead.trans hp), scan_cons_passed hp, ih htail]
    | false =>
      cases he : b.effect env with
      | error e => rw [scan_cons_error (hhead.trans hp) he, scan_cons_error hp he]
      | ok r =>
        obtain ⟨env', shuts⟩ := r
        rw [scan_cons_ok (hhead.trans hp) he, scan_cons_ok hp he]
        congr 1
        apply ih
        intro v hv
        cases shuts with
        | false => exact htail v hv
        | true =>
          simp only [if_true, List.any_cons]
          rw [htail v hv]

/-- Visits inside a shut block leave no trace. -/
theorem scan_append_passed (h : ∀ v ∈ vs, shut.any v.1.isInside = true) :
    scan shut env (vs ++ rest) = scan shut env rest := by
  induction vs with
  | nil => rfl
  | cons v vs ih =>
    obtain ⟨p, b⟩ := v
    rw [List.cons_append, scan_cons_passed (h (p, b) List.mem_cons_self)]
    exact ih fun v hv => h v (List.mem_cons_of_mem _ hv)

theorem sublist_visited_scan (shut : List Path) (env : Env) (vs : List (Path × Block)) :
    (scan shut env vs).visited.Sublist (vs.map Prod.fst) := by
  induction vs generalizing shut env with
  | nil => exact List.Sublist.slnil
  | cons v vs ih =>
    obtain ⟨p, b⟩ := v
    rw [List.map_cons]
    cases hp : shut.any p.isInside with
    | true =>
      rw [scan_cons_passed hp]
      exact (ih shut env).cons p
    | false =>
      cases he : b.effect env with
      | error e =>
        rw [scan_cons_error hp he]
        exact (List.nil_sublist _).cons_cons p
      | ok r =>
        rw [scan_cons_ok hp he]
        exact (ih _ _).cons_cons p

/-- A scan that fails ends at the failing block. -/
theorem getLast?_visited_scan {f : Failure} (h : (scan shut env vs).failure = some f) :
    (scan shut env vs).visited.getLast? = some f.path := by
  induction vs generalizing shut env with
  | nil => cases h
  | cons v vs ih =>
    obtain ⟨p, b⟩ := v
    cases hp : shut.any p.isInside with
    | true =>
      rw [scan_cons_passed hp] at h ⊢
      exact ih h
    | false =>
      cases he : b.effect env with
      | error e =>
        rw [scan_cons_error hp he] at h ⊢
        cases h
        rfl
      | ok r =>
        rw [scan_cons_ok hp he] at h ⊢
        have hlast := ih h
        rw [Outcome.visiting, List.getLast?_cons, hlast]
        rfl

end Scan

/-! ## Outcomes one after the other -/

namespace Outcome

/-- The outcome, as seen from where the path `p` starts. -/
def below (p : Path) (o : Outcome) : Outcome :=
  ⟨o.env, o.visited.map (p ++ ·), o.failure.map fun f => { f with path := p ++ f.path }⟩

/-- What `o` did, and then, if it did not fail, what `k` does in the environment it left. -/
def thenRun (o : Outcome) (k : Env → Outcome) : Outcome :=
  match o.failure with
  | some _ => o
  | none => o.andThen (k o.env)

variable {o : Outcome} {k l : Env → Outcome}

theorem thenRun_of_failure {f : Failure} (h : o.failure = some f) : o.thenRun k = o := by
  rw [thenRun, h]

theorem thenRun_of_success (h : o.failure = none) : o.thenRun k = o.andThen (k o.env) := by
  rw [thenRun, h]

theorem thenRun_done (o : Outcome) : (o.thenRun fun env => ⟨env, [], none⟩) = o := by
  obtain ⟨env, visited, failure⟩ := o
  cases failure with
  | some f => rfl
  | none => simp [thenRun, andThen]

theorem andThen_thenRun (o r : Outcome) : (o.andThen r).thenRun l = o.andThen (r.thenRun l) := by
  obtain ⟨env, visited, failure⟩ := r
  cases failure with
  | some f => rfl
  | none => simp [thenRun, andThen]

theorem thenRun_assoc : (o.thenRun k).thenRun l = o.thenRun fun env => (k env).thenRun l := by
  cases h : o.failure with
  | some f => rw [thenRun_of_failure h, thenRun_of_failure h, thenRun_of_failure h]
  | none => rw [thenRun_of_success h, thenRun_of_success h, andThen_thenRun]

theorem thenRun_visiting (p : Path) : (o.visiting p).thenRun k = (o.thenRun k).visiting p := by
  obtain ⟨env, visited, failure⟩ := o
  cases failure <;> rfl

theorem below_nil (o : Outcome) : o.below [] = o := by
  obtain ⟨env, visited, failure⟩ := o
  cases failure <;> simp [below]

theorem below_under (p : Path) (i : Nat) (o : Outcome) : (o.under i).below p = o.below (p ++ [i]) := by
  obtain ⟨env, visited, failure⟩ := o
  cases failure <;> simp [below, under]

theorem below_entered (p : Path) (o : Outcome) : o.entered.below p = (o.below p).visiting p := by
  simp [below, entered, visiting]

theorem below_thenRun (p : Path) : (o.thenRun k).below p = (o.below p).thenRun fun env => (k env).below p := by
  obtain ⟨env, visited, failure⟩ := o
  cases failure with
  | some f => rfl
  | none => simp [thenRun, andThen, below]

end Outcome

/-! ## Runs of sequences -/

namespace Block

theorem execFrom_nil (i : Nat) (env : Env) : execFrom i env [] = ⟨env, [], none⟩ := by
  rw [execFrom]

theorem execFrom_cons (i : Nat) (env : Env) (b : Block) (bs : List Block) :
    execFrom i env (b :: bs) = ((b.exec env).under i).thenRun fun env => execFrom (i + 1) env bs := by
  rw [execFrom]
  rfl

/-- What becomes of a block with its own effect: an error ends the run, a condition that does not hold leaves out its
children, and all other blocks run theirs. -/
def proceed (env : Env) (children : List Block) : Except RunError (Env × Bool) → Outcome
  | .error e => ⟨env, [[]], some ⟨[], e⟩⟩
  | .ok (env', true) => ⟨env', [[]], none⟩
  | .ok (env', false) => (execFrom 0 env' children).entered

theorem ofEffect_eq_proceed (env : Env) (r : Except RunError Env) :
    Outcome.ofEffect env r = proceed env [] (r.map (·, false)) := by
  cases r with
  | error e => rfl
  | ok env' =>
    change _ = (execFrom 0 env' []).entered
    rw [execFrom_nil]
    rfl

theorem exec_eq (env : Env) (b : Block) : b.exec env = proceed env b.children (b.effect env) := by
  cases b with
  | declare _ | assign _ _ | calculate _ _ =>
    rw [exec]
    exact ofEffect_eq_proceed env _
  | cond lhs op rhs body =>
    rw [exec, effect]
    cases condition lhs op rhs env with
    | error e => rfl
    | ok holds => cases holds <;> rfl

theorem below_execFrom_cons (p : Path) (i : Nat) (env : Env) (b : Block) (bs : List Block) (k : Env → Outcome) :
    ((execFrom i env (b :: bs)).below p).thenRun k =
      ((b.exec env).below (p ++ [i])).thenRun fun env => ((execFrom (i + 1) env bs).below p).thenRun k := by
  rw [execFrom_cons, Outcome.below_thenRun, Outcome.below_under, Outcome.thenRun_assoc]

end Block

/-! ## Paths that are shut -/

/-- No shut path lies around the sequence at `p`, nor in it from the index `i` on. -/
def Open (shut : List Path) (p : Path) (i : Nat) : Prop :=
  ∀ q ∈ shut, ¬ q <+: p ∧ ∀ j, i ≤ j → ¬ p ++ [j] <+: q

/-- No visit leads into the sequence at `p` from the index `i` on. -/
def Outside (visits : List (Path × Block)) (p : Path) (i : Nat) : Prop :=
  ∀ v ∈ visits, ∀ j, i ≤ j → ¬ p ++ [j] <+: v.1

section Shut

variable {shut : List Path} {p : Path} {i : Nat} {vs : List (Path × Block)}

theorem Open.any_isInside (h : Open shut p i) : shut.any (p ++ [i]).isInside = false := by
  rw [List.any_eq_false]
  intro q hq hinside
  obtain ⟨hfront, hne⟩ := Path.isInside_iff.1 hinside
  rcases List.prefix_concat_iff.1 hfront with heq | hfront
  · exact hne heq
  · exact (h q hq).1 hfront

theorem Open.succ (h : Open shut p i) : Open shut p (i + 1) :=
  fun q hq => ⟨(h q hq).1, fun j hj => (h q hq).2 j (Nat.le_of_succ_le hj)⟩

theorem Open.children (h : Open shut p i) : Open shut (p ++ [i]) 0 := by
  intro q hq
  obtain ⟨haround, hin⟩ := h q hq
  constructor
  · intro hfront
    rcases List.prefix_concat_iff.1 hfront with rfl | hfront
    · exact hin i (Nat.le_refl i) List.prefix_rfl
    · exact haround hfront
  · intro j _ hfront
    exact hin i (Nat.le_refl i) ((List.prefix_append _ _).trans hfront)

theorem not_concat_prefix_concat {j : Nat} (hj : i ≠ j) {r : Path} : ¬ p ++ [i] <+: p ++ j :: r := by
  rw [List.prefix_append_right_inj, List.cons_prefix_cons]
  exact fun h => hj h.1

/-- A block that is shut itself does not stand in the way of its later siblings. -/
theorem Open.siblings (h : Open shut p i) : Open ((p ++ [i]) :: shut) p (i + 1) := by
  intro q hq
  rcases List.mem_cons.1 hq with rfl | hq
  · refine ⟨fun hfront => ?_, fun j hj => not_concat_prefix_concat (by omega)⟩
    have hlength := hfront.length_le
    rw [List.length_append] at hlength
    exact absurd hlength (by simp)
  · exact h.succ q hq

theorem Outside.succ (h : Outside vs p i) : Outside vs p (i + 1) :=
  fun v hv j hj => h v hv j (Nat.le_of_succ_le hj)

/-- Neither the later siblings of a block nor what comes behind its sequence lies inside it. -/
theorem Outside.children (h : Outside vs p i) (bs : List Block) :
    Outside (preorderFrom p (i + 1) bs ++ vs) (p ++ [i]) 0 := by
  intro v hv j _ hfront
  have hi : p ++ [i] <+: v.1 := (List.prefix_append _ _).trans hfront
  rcases List.mem_append.1 hv with hv | hv
  · obtain ⟨j, r, hj, hr⟩ := exists_of_mem_preorderFrom hv
    rw [hr] at hi
    exact not_concat_prefix_concat (by omega) hi
  · exact h v hv i (Nat.le_refl i) hi

theorem Outside.any_cons (h : Outside vs p i) (shut : List Path) :
    ∀ v ∈ vs, ((p ++ [i]) :: shut).any v.1.isInside = shut.any v.1.isInside := by
  intro v hv
  have hinside : v.1.isInside (p ++ [i]) = false := by
    rw [Bool.eq_false_iff]
    intro hinside
    exact h v hv i (Nat.le_refl i) (Path.isInside_iff.1 hinside).1
  rw [List.any_cons, hinside, Bool.false_or]

/-- All that is inside a shut block is passed over. -/
theorem any_isInside_children (shut : List Path) (p : Path) (bs : List Block) :
    ∀ v ∈ preorderFrom p 0 bs, (p :: shut).any v.1.isInside = true := by
  intro v hv
  obtain ⟨j, r, -, hr⟩ := exists_of_mem_preorderFrom hv
  have hinside : v.1.isInside p = true := by
    rw [Path.isInside_iff, hr]
    refine ⟨List.prefix_append _ _, fun h => ?_⟩
    simpa using congrArg List.length h
  rw [List.any_cons, hinside, Bool.true_or]

end Shut

/-! ## The run and the scan -/

/-- **Scanning the visits of a sequence and what comes behind them is running the sequence and scanning the rest.** -/
theorem scan_preorderFrom (bs : List Block) {shut : List Path} {p : Path} {i : Nat} {rest : List (Path × Block)}
    (env : Env) (hopen : Open shut p i) (hrest : Outside rest p i) :
    scan shut env (preorderFrom p i bs ++ rest) =
      ((execFrom i env bs).below p).thenRun fun env => scan shut env rest := by
  induction bs using Block.sequence_induction generalizing shut p i rest env with
  | nil =>
    rw [preorderFrom_nil, List.nil_append, Block.execFrom_nil]
    rfl
  | cons b bs ihchildren ihbs =>
    have hpassed := hopen.any_isInside
    rw [preorderFrom_cons, List.cons_append, List.append_assoc, Block.below_execFrom_cons, Block.exec_eq]
    cases he : b.effect env with
    | error e =>
      rw [scan_cons_error hpassed he]
      simp [Block.proceed, Outcome.below, Outcome.thenRun]
    | ok r =>
      obtain ⟨env', shuts⟩ := r
      rw [scan_cons_ok hpassed he]
      cases shuts with
      | true =>
        -- the children are passed over, and behind the sequence the block is not in the way any more
        have hscan : scan ((p ++ [i]) :: shut) env' (preorderFrom p (i + 1) bs ++ rest) =
            ((execFrom (i + 1) env' bs).below p).thenRun fun env => scan shut env rest := by
          rw [ihbs env' hopen.siblings hrest.succ]
          congr 1
          funext env
          exact scan_congr (hrest.any_cons shut) env
        rw [if_pos rfl, scan_append_passed (any_isInside_children shut (p ++ [i]) b.children), hscan]
        simp [Block.proceed, Outcome.below, Outcome.thenRun, Outcome.andThen, Outcome.visiting]
      | false =>
        rw [if_neg (by nofun), ihchildren env' hopen.children (hrest.children bs)]
        rw [Block.proceed, Outcome.below_entered, Outcome.thenRun_visiting]
        congr 2
        funext env
        exact ihbs env hopen.succ hrest.succ

theorem run_eq_scan_walk (bs : List Block) (env : Env) : run bs env = scan [] env (Program.walk ⟨bs⟩) := by
  have hopen : Open [] [] 0 := nofun
  have hrest : Outside [] [] 0 := nofun
  have h := scan_preorderFrom bs env hopen hrest
  rw [List.append_nil, Outcome.below_nil] at h
  rw [Program.walk_eq_preorderFrom, h]
  exact (Outcome.thenRun_done _).symm

/-! ## Visited blocks -/

theorem Outcome.mem_visited_thenRun {o : Outcome} {k : Env → Outcome} {p : Path} :
    p ∈ (o.thenRun k).visited ↔ p ∈ o.visited ∨ o.failure = none ∧ p ∈ (k o.env).visited := by
  cases h : o.failure with
  | some f => simp [thenRun_of_failure h]
  | none => simp [thenRun_of_success h, andThen]

theorem Block.mem_visited_exec_iff {b : Block} {env : Env} {p : Path} : p ∈ (b.exec env).visited ↔
    p = [] ∨ ∃ env', b.effect env = .ok (env', false) ∧ p ∈ (execFrom 0 env' b.children).visited := by
  rw [exec_eq]
  cases b.effect env with
  | error e => simp [proceed]
  | ok r =>
    obtain ⟨env', shuts⟩ := r
    cases shuts <;> simp [proceed, Outcome.entered]

/-- Whoever visits a block has visited all blocks around it. -/
theorem ancestor_mem_visited {bs : List Block} {i : Nat} {env : Env} {p q : Path}
    (hp : p ∈ (execFrom i env bs).visited) (hq : q ≠ []) (hfront : q <+: p) : q ∈ (execFrom i env bs).visited := by
  induction bs using Block.sequence_induction generalizing i env p q with
  | nil => rw [Block.execFrom_nil] at hp; cases hp
  | cons b bs ihchildren ihbs =>
    have hblock : ∀ p ∈ (b.exec env).visited, ∀ q, q <+: p → q ∈ (b.exec env).visited := by
      intro p hp q hfront
      rw [Block.mem_visited_exec_iff] at hp ⊢
      by_cases hq : q = []
      · exact Or.inl hq
      · rcases hp with rfl | ⟨env', he, hp⟩
        · exact absurd (List.prefix_nil.1 hfront) hq
        · exact Or.inr ⟨env', he, ihchildren hp hq hfront⟩
    rw [Block.execFrom_cons, Outcome.mem_visited_thenRun] at hp ⊢
    rcases hp with hp | ⟨hfailure, hp⟩
    · obtain ⟨p', hp', rfl⟩ := List.mem_map.1 hp
      obtain ⟨j, q', rfl⟩ := List.exists_cons_of_ne_nil hq
      obtain ⟨rfl, hfront'⟩ := List.cons_prefix_cons.1 hfront
      exact Or.inl (List.mem_map.2 ⟨q', hblock p' hp' q' hfront', rfl⟩)
    · exact Or.inr ⟨hfailure, ihbs hp hq hfront⟩

/-- **A run is a scan of the walk.** So it visits blocks in the order of the walk, no block twice, each only behind all
the blocks around it, and a failing block last. -/
theorem run_scans_walk (bs : List Block) (env : Env) :
    run bs env = scan [] env (Program.walk ⟨bs⟩) ∧
      (run bs env).visited.Sublist ((Program.walk ⟨bs⟩).map Prod.fst) ∧
      (run bs env).visited.Pairwise Path.Before ∧
      (run bs env).visited.Nodup ∧
      (∀ p ∈ (run bs env).visited, ∀ q, q ≠ [] → q <+: p → q ∈ (run bs env).visited) ∧
      ∀ f, (run bs env).failure = some f → (run bs env).visited.getLast? = some f.path := by
  have hrun := run_eq_scan_walk bs env
  have hsublist : (run bs env).visited.Sublist ((Program.walk ⟨bs⟩).map Prod.fst) := by
    rw [hrun]
    exact sublist_visited_scan _ _ _
  have hbefore : (run bs env).visited.Pairwise Path.Before := by
    refine List.Pairwise.sublist hsublist ?_
    rw [Program.walk_eq_preorderFrom]
    exact Block.pairwise_preorderFrom _ _ _
  refine ⟨hrun, hsublist, hbefore, ?_, ?_, ?_⟩
  · exact hbefore.imp fun h => h.ne
  · intro p hp q hq hfront
    exact ancestor_mem_visited hp hq hfront
  · intro f hf
    rw [hrun] at hf ⊢
    exact getLast?_visited_scan hf

/-- A program with a condition that does not hold, and one that holds with a failing block inside. -/
def guarded : List Block :=
  [.declare ["x, y"], .cond "1" .gt "2" [.assign "x" "1"],
    .cond "1" .lt "2" [.calculate "x" "7", .cond "x" .eq "7" [.assign "z" "1"], .declare ["w"]], .declare ["v"]]

theorem run_scans_walk_guarded :
    (run guarded .empty).failure = some ⟨[2, 1, 0], .undeclaredVariable "z"⟩ ∧
      (run guarded .empty).visited.getLast? = some [2, 1, 0] ∧ [2, 1] ∈ (run guarded .empty).visited := by
  have hfailure : (run guarded .empty).failure = some ⟨[2, 1, 0], .undeclaredVariable "z"⟩ := by decide +kernel
  have hvisited : [2, 1, 0] ∈ (run guarded .empty).visited := by decide +kernel
  obtain ⟨-, -, -, -, haround, hlast⟩ := run_scans_walk guarded .empty
  exact ⟨hfailure, hlast _ hfailure, haround _ hvisited [2, 1] (by decide) (by decide)⟩

end BlockScript
