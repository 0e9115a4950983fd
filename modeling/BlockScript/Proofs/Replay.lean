import BlockScript.Proofs.Stopping
import BlockScript.Session.Basic
import Mathlib.Control.Monad.Basic
import Mathlib.Data.List.DropRight

/-!
# A session and the run of its blocks

A session handles lines of many kinds, but its variables depend on few of them. What a line can ask for is said once
(`Command.read?_cases`): a block that comes from a line holds no other blocks, so if it fails it has changed nothing
(`run_singleton_env_of_failure`), and of all other lines only a reset changes the variables (`handle_env_of_other`).

So the blocks that have run since the last reset (`Session.kept`) are all there is to know about a session. Handling a
line keeps the session in step with a run of these blocks (`Agrees.handle`), and **after any lines the variables are
those that a run of the kept blocks gives** (`session_eq_run`).
-/

namespace BlockScript

open Text (trim)

/-! ## What lines ask for -/

/-- A line with two sides, if it can be read, asks for the block made of them. -/
theorem Command.exists_of_sides {keyword text : String} {c : Command} {make : String → String → Block}
    (h : (do let (lhs, rhs) ← sides keyword text; return some (.block (make lhs rhs))) = Except.ok (some c)) :
    ∃ lhs rhs, c = .block (make lhs rhs) := by
  cases hs : sides keyword text with
  | error e => rw [hs] at h; cases h
  | ok r =>
    rw [hs] at h
    cases h
    exact ⟨r.1, r.2, rfl⟩

/-- What a line can ask for. Blocks that come from a line hold no others. -/
theorem Command.read?_cases {line : String} {c : Command} (h : read? line = .ok (some c)) :
    c = .quit ∨ c = .help ∨ c = .vars ∨ (c = .reset ∧ trim line = ":reset") ∨ c = .eval (trim line) ∨
      ∃ b, c = .block b ∧ b.body? = none := by
  rw [read?] at h
  split at h
  · cases h
  · split at h
    · split at h <;> cases h <;> simp_all
    · generalize (Text.splitOnce Text.isBlank (trim line)).getD (trim line, "") = words at h
      obtain ⟨keyword, rest⟩ := words
      simp only at h
      split at h
      · cases h
        simp [Block.body?]
      · obtain ⟨lhs, rhs, rfl⟩ := exists_of_sides h
        simp [Block.body?]
      · obtain ⟨lhs, rhs, rfl⟩ := exists_of_sides h
        simp [Block.body?]
      · cases h
        simp

theorem Command.read?_of_reset {line : String} (h : trim line = ":reset") : read? line = .ok (some .reset) := by
  rw [read?, h]
  rfl

/-! ## Blocks by themselves -/

theorem Outcome.result_eq_ok_iff {o : Outcome} {env : Env} : o.result = .ok env ↔ o.failure = none ∧ o.env = env := by
  rw [result]
  cases o.failure with
  | none => simp
  | some f => simp

/-- A block without a body that fails has changed nothing. -/
theorem run_singleton_env_of_failure {b : Block} {env : Env} {f : Failure} (hbody : b.body? = none)
    (h : (run [b] env).failure = some f) : (run [b] env).env = env := by
  rw [run_singleton] at h ⊢
  obtain ⟨g, hg, -⟩ := Option.map_eq_some_iff.1 h
  rcases Block.exec_failure hg with ⟨e, he⟩ | ⟨lhs, op, rhs, body, rfl, -⟩
  · rw [Block.exec_of_error he]
    rfl
  · cases hbody

/-- One more block is run in the environment that the blocks before it have left. -/
theorem result_run_concat {bs : List Block} {b : Block} {env env' : Env} (h : (run bs env).result = .ok env')
    (hb : (run [b] env').failure = none) : (run (bs ++ [b]) env).result = .ok (run [b] env').env := by
  obtain ⟨hfailure, rfl⟩ := Outcome.result_eq_ok_iff.1 h
  rw [run_append, Outcome.thenRun_of_success hfailure, Outcome.result_eq_ok_iff]
  exact ⟨congrArg (Option.map _) hb, rfl⟩

namespace Session

/-! ## Lines that have been handled -/

/-- A line that has been handled, and the answer to it. -/
structure Entry where
  line : String
  answer : Except SessionError Reply

/-- Whether the line is the command to forget all variables. -/
def Entry.isReset (e : Entry) : Bool := trim e.line == ":reset"

/-- The block of the line, if it is one and has run. -/
def Entry.ran? (e : Entry) : Option Block :=
  match Command.read? e.line, e.answer with
  | .ok (some (.block b)), .ok _ => some b
  | _, _ => none

/-- What is kept of a line that is handled where the variables are `env`. -/
def entry (env : Env) (line : String) : Entry := ⟨line, (handle env line).1⟩

/-- All lines with the answers to them, in order. -/
def log (env : Env) : List String → List Entry
  | [] => []
  | line :: lines => entry env line :: log (handle env line).2 lines

/-- The variables after lines have been handled in order. -/
def envAfter (env : Env) (lines : List String) : Env := lines.foldl (fun env line => (handle env line).2) env

/-- The blocks that have run since the last reset. -/
def kept (entries : List Entry) : List Block := (entries.rtakeWhile fun e => !e.isReset).filterMap Entry.ran?

section Entries

variable {entries : List Entry} {e : Entry} {b : Block}

theorem Entry.ran?_eq_some_iff :
    e.ran? = some b ↔ Command.read? e.line = .ok (some (.block b)) ∧ ∃ reply, e.answer = .ok reply := by
  rw [ran?]
  constructor
  · intro h
    split at h
    · rename_i hread hanswer
      cases h
      exact ⟨hread, _, hanswer⟩
    · cases h
  · rintro ⟨hread, reply, hanswer⟩
    rw [hread, hanswer]

theorem kept_concat_of_reset (h : e.isReset = true) : kept (entries ++ [e]) = [] := by
  rw [kept, List.rtakeWhile_concat_neg _ _ _ (by simp [h])]
  rfl

theorem kept_concat (h : e.isReset = false) : kept (entries ++ [e]) = kept entries ++ e.ran?.toList := by
  rw [kept, List.rtakeWhile_concat_pos _ _ _ (by simp [h]), List.filterMap_append, List.filterMap_cons]
  cases e.ran? <;> rfl

end Entries

/-! ## One line -/

/-- A block either runs, and leaves the variables that a run leaves, or fails and leaves them as they were. -/
theorem obey_block (env : Env) {b : Block} (hbody : b.body? = none) :
    ((run [b] env).failure = none ∧ ∃ reply, obey env (.block b) = (.ok reply, (run [b] env).env)) ∨
      ∃ e, obey env (.block b) = (.error e, env) := by
  rw [obey]
  cases hfailure : (run [b] env).failure with
  | none => exact .inl ⟨rfl, _, rfl⟩
  | some f => exact .inr ⟨_, congrArg (Prod.mk _) (run_singleton_env_of_failure hbody hfailure)⟩

/-- A line that is neither a block nor the command to forget the variables leaves them as they are. -/
theorem handle_env_of_other (env : Env) {line : String} (hreset : trim line ≠ ":reset")
    (hblock : ∀ b, Command.read? line ≠ .ok (some (.block b))) : (handle env line).2 = env := by
  rw [handle]
  cases hread : Command.read? line with
  | error e => rfl
  | ok command =>
    cases command with
    | none => rfl
    | some c =>
      rcases Command.read?_cases hread with rfl | rfl | rfl | ⟨rfl, h⟩ | rfl | ⟨b, rfl, -⟩
      · rfl
      · rfl
      · rfl
      · exact absurd h hreset
      · change (obey env (.eval (trim line))).2 = env
        rw [obey]
        split <;> rfl
      · exact absurd hread (hblock b)

/-- A line forgets the variables, or is a block that runs, or leaves the variables as they are. -/
theorem handle_cases (env : Env) (line : String) :
    ((entry env line).isReset = true ∧ handle env line = (.ok .silent, .empty)) ∨
    ((entry env line).isReset = false ∧ ∃ b, (entry env line).ran? = some b ∧ (run [b] env).failure = none ∧
      (handle env line).2 = (run [b] env).env) ∨
    ((entry env line).isReset = false ∧ (entry env line).ran? = none ∧ (handle env line).2 = env) := by
  by_cases hreset : trim line = ":reset"
  · left
    refine ⟨beq_iff_eq.2 hreset, ?_⟩
    rw [handle, Command.read?_of_reset hreset]
    rfl
  · right
    have hisReset : (entry env line).isReset = false := beq_eq_false_iff_ne.2 hreset
    by_cases hblock : ∃ b, Command.read? line = .ok (some (.block b))
    · obtain ⟨b, hread⟩ := hblock
      have hbody : b.body? = none := by simpa using Command.read?_cases hread
      have hhandle : handle env line = obey env (.block b) := by rw [handle, hread]
      rcases obey_block env hbody with ⟨hrun, reply, hobey⟩ | ⟨e, hobey⟩
      · have hran : (entry env line).ran? = some b :=
          Entry.ran?_eq_some_iff.2 ⟨hread, reply, by rw [entry, hhandle, hobey]⟩
        exact .inl ⟨hisReset, b, hran, hrun, by rw [hhandle, hobey]⟩
      · have hran : (entry env line).ran? = none := by
          rw [Option.eq_none_iff_forall_ne_some]
          intro b' hb'
          obtain ⟨-, reply, hreply⟩ := Entry.ran?_eq_some_iff.1 hb'
          rw [entry, hhandle, hobey] at hreply
          cases hreply
        exact .inr ⟨hisReset, hran, by rw [hhandle, hobey]⟩
    · have hran : (entry env line).ran? = none := by
        rw [Option.eq_none_iff_forall_ne_some]
        intro b hb
        exact hblock ⟨b, (Entry.ran?_eq_some_iff.1 hb).1⟩
      exact .inr ⟨hisReset, hran, handle_env_of_other env hreset fun b hb => hblock ⟨b, hb⟩⟩

theorem handle_env_of_error {env : Env} {line : String} {e : SessionError} (h : (handle env line).1 = .error e) :
    (handle env line).2 = env := by
  rcases handle_cases env line with ⟨-, hhandle⟩ | ⟨-, b, hran, -⟩ | ⟨-, -, henv⟩
  · rw [hhandle] at h
    cases h
  · obtain ⟨-, reply, hreply⟩ := Entry.ran?_eq_some_iff.1 hran
    rw [entry, h] at hreply
    cases hreply
  · exact henv

/-! ## Whole sessions -/

/-- A run of the blocks kept of a session gives its variables. -/
def Agrees (entries : List Entry) (env : Env) : Prop := (run (kept entries) .empty).result = .ok env

theorem agrees_nil : Agrees [] .empty := by
  rw [Agrees, kept, List.rtakeWhile_nil, List.filterMap_nil, run_nil]
  rfl

/-- One more line keeps the session in step with the run. -/
theorem Agrees.handle {entries : List Entry} {env : Env} (h : Agrees entries env) (line : String) :
    Agrees (entries ++ [entry env line]) (handle env line).2 := by
  rw [Agrees] at h ⊢
  rcases handle_cases env line with ⟨hreset, hhandle⟩ | ⟨hreset, b, hran, hrun, henv⟩ | ⟨hreset, hran, henv⟩
  · rw [kept_concat_of_reset hreset, hhandle, run_nil]
    rfl
  · rw [kept_concat hreset, hran, henv]
    exact result_run_concat h hrun
  · rw [kept_concat hreset, hran, henv]
    exact (List.append_nil (kept entries)).symm ▸ h

theorem Agrees.lines {entries : List Entry} {env : Env} (h : Agrees entries env) (lines : List String) :
    Agrees (entries ++ log env lines) (envAfter env lines) := by
  induction lines generalizing entries env with
  | nil => rwa [log, List.append_nil]
  | cons line lines ih =>
    rw [log, List.append_cons, envAfter, List.foldl_cons]
    exact ih (h.handle line)

/-- **A session has the variables that a run of its blocks gives**, of those blocks that have run since the last reset.
A line that fails, or that is neither a block nor a reset, leaves the variables as they are. -/
theorem session_eq_run (lines : List String) :
    (run (kept (log .empty lines)) .empty).result = .ok (envAfter .empty lines) ∧
      ∀ env line, ((∃ e, (handle env line).1 = .error e) ∨
          (trim line ≠ ":reset" ∧ ∀ b, Command.read? line ≠ .ok (some (.block b)))) →
        (handle env line).2 = env := by
  refine ⟨agrees_nil.lines lines, ?_⟩
  rintro env line (⟨e, he⟩ | ⟨hreset, hblock⟩)
  · exact handle_env_of_error he
  · exact handle_env_of_other env hreset hblock

/-- A session with a reset and two blocks that fail. -/
def dialogue : List String :=
  ["declare a", "set a = 5", " :reset ", "declare n, m", "calc n = 6 * 7", "declare x, 2y", "calc m = n / 0"]

theorem session_eq_run_dialogue :
    (run (kept (log .empty dialogue)) .empty).result = .ok (.ofList [("n", 42), ("m", 0)]) ∧
      (handle (.ofList [("n", 42), ("m", 0)]) "calc m = n / 0").2 = .ofList [("n", 42), ("m", 0)] := by
  have henv : envAfter .empty dialogue = .ofList [("n", 42), ("m", 0)] := by decide +kernel
  have herror : (handle (.ofList [("n", 42), ("m", 0)]) "calc m = n / 0").1 =
      .error (.run (.expression .divisionByZero)) := by decide +kernel
  obtain ⟨hrun, hunchanged⟩ := session_eq_run dialogue
  rw [henv] at hrun
  exact ⟨hrun, hunchanged _ _ (.inl ⟨_, herror⟩)⟩

end Session

end BlockScript
