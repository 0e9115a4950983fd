import BlockScript.Proofs.Effects
import BlockScript.Proofs.Lexing

/-!
# Variables can be read back

Two parts of a program look at names: a declaration checks the trimmed pieces of its entries, and an expression cuts
names out of its blank-free characters. They fit together. Declarations let in nothing but names, and only they bring
variables in, so the variables of a program always have names that are one lexeme each (`Env.Proper`); this is kept by
every block and so by every run. An expression that is such a name, with blanks put in anywhere, has the value of the
variable (`calculate_of_isName`).

So **after any runs, each variable can be read back by its name** (`variables_readable`).
-/

namespace BlockScript

/-! ## Proper environments -/

namespace Env

/-- The names are distinct, so each of them is found with its own value. -/
theorem get?_of_mem {env : Env} {x : String} {v : Value} (h : (x, v) ∈ env.vars) : env.get? x = some v := by
  obtain ⟨front, back, heq⟩ := List.append_of_mem h
  have hnodup := env.nodup
  rw [heq, List.map_append, List.map_cons, List.nodup_append] at hnodup
  rw [get?, heq, List.lookup_eq_some_iff]
  refine ⟨front, back, rfl, fun w hw => ?_⟩
  have hne := hnodup.2.2 w.1 (List.mem_map_of_mem hw) x List.mem_cons_self
  simpa using hne.symm

/-- The names of the variables can stand in an expression. -/
def Proper (env : Env) : Prop := ∀ x ∈ env.names, Lexeme.isName x = true

theorem proper_empty : Proper .empty := List.forall_mem_nil _

variable {env : Env}

theorem Proper.insert {x : String} (h : Proper env) (hx : Lexeme.isName x = true) (v : Value) :
    Proper (env.insert x v) := by
  intro y hy
  rw [names_insert] at hy
  by_cases hmem : x ∈ env.names
  · rw [if_pos hmem] at hy
    exact h y hy
  · rw [if_neg hmem, List.mem_append, List.mem_singleton] at hy
    rcases hy with hy | rfl
    · exact h y hy
    · exact hx

theorem Proper.storeAll {writes : List (String × Value)} (h : Proper env)
    (hwrites : ∀ w ∈ writes, Lexeme.isName w.1 = true) : Proper (env.storeAll writes) := by
  induction writes generalizing env with
  | nil => exact h
  | cons w writes ih =>
    rw [storeAll_cons]
    exact ih (h.insert (hwrites w List.mem_cons_self) w.2) fun w hw => hwrites w (List.mem_cons_of_mem _ hw)

/-- A block stores nothing but under names that are declared or that it has checked. -/
theorem Proper.effect {env' : Env} {b : Block} {shuts : Bool} (h : Proper env)
    (heffect : b.effect env = .ok (env', shuts)) : Proper env' := by
  obtain ⟨writes, rfl, hwrites⟩ := Block.exists_writes heffect
  apply h.storeAll
  intro w hw
  rcases (hwrites w hw).2 with hdeclared | hname
  · exact h w.1 (isDeclared_iff.1 hdeclared)
  · exact hname

theorem Proper.run (h : Proper env) (bs : List Block) : Proper (run bs env).env :=
  run_preserves (fun _ _ _ _ _ heffect h => h.effect heffect) h

/-- The environment after programs have been run in it one after the other, whether they failed or not. -/
def afterRuns (env : Env) (programs : List (List Block)) : Env :=
  programs.foldl (fun env bs => (BlockScript.run bs env).env) env

theorem Proper.afterRuns (h : Proper env) (programs : List (List Block)) : Proper (env.afterRuns programs) := by
  induction programs generalizing env with
  | nil => exact h
  | cons bs programs ih => exact ih (h.run bs)

end Env

/-! ## Names as expressions -/

/-- A name, whatever blanks are put into it, is an expression with the value of the variable. -/
theorem calculate_of_isName {env : Env} {x source : String} {v : Value} (hname : Lexeme.isName x = true)
    (hget : env.get? x = some v) (hsource : Text.blankFree source.toList = x.toList) :
    calculate env source = .ok v := by
  have hsplit : Lexeme.split (Text.blankFree source.toList) = ([⟨.name, x.toList⟩], []) := by
    rw [hsource]
    simpa [Lexeme.isName] using hname
  obtain ⟨span, hscan⟩ := Token.scan_of_split_singleton hsplit
  have hstep : Postfix.step env .start ⟨.name, x, span⟩ = .ok ([.operand (.int v)], ⟨[], false, false⟩) := by
    rw [Postfix.step]
    simp only [hget]
    rfl
  rw [calculate, hscan]
  change Postfix.convert env .start [⟨.name, x, span⟩] >>= Postfix.evaluate = .ok v
  rw [Postfix.convert, hstep]
  rfl

/-- **Each variable can be read back by its name.** After any runs from the empty environment, whether they failed or
not, the names of the variables are distinct, each of them passes the check of a declaration, and an expression that is
one of them, with blanks put in anywhere, has the value of the variable. -/
theorem variables_readable (programs : List (List Block)) :
    (Env.empty.afterRuns programs).names.Nodup ∧
      (∀ x ∈ (Env.empty.afterRuns programs).names, Lexeme.isName x = true) ∧
      ∀ x v, (x, v) ∈ (Env.empty.afterRuns programs).vars →
        ∀ source : String, Text.blankFree source.toList = x.toList →
          calculate (Env.empty.afterRuns programs) source = .ok v := by
  have hproper := Env.proper_empty.afterRuns programs
  refine ⟨(Env.empty.afterRuns programs).nodup, hproper, fun x v hmem source hsource => ?_⟩
  have hname : Lexeme.isName x = true := hproper x (List.mem_map_of_mem hmem)
  exact calculate_of_isName hname (Env.get?_of_mem hmem) hsource

/-- Two programs, the first of which fails behind two of its blocks. -/
def relay : List (List Block) :=
  [[.declare [" a_1 ,, b", "b"], .calculate "a_1" "6 * 7", .assign "c" "1", .declare ["d"]],
    [.calculate "b" "a _1 - 1"]]

theorem variables_readable_relay :
    (Env.empty.afterRuns relay).vars = [("a_1", 42), ("b", 41)] ∧
      calculate (Env.empty.afterRuns relay) "\ta _ 1 " = .ok 42 := by
  have hvars : (Env.empty.afterRuns relay).vars = [("a_1", 42), ("b", 41)] := by decide +kernel
  have hmem : ("a_1", 42) ∈ (Env.empty.afterRuns relay).vars := by rw [hvars]; exact List.mem_cons_self
  exact ⟨hvars, (variables_readable relay).2.2 "a_1" 42 hmem "\ta _ 1 " (by decide +kernel)⟩

end BlockScript
