import BlockScript.Proofs.Stopping

/-!
# What a block reads and writes

The variables that a block can have to do with are those that its text mentions (`Block.names`). What it does is decided
by their values: in all environments that agree on them it fails with the same error, or stores the same values under
names that it mentions (`Block.decided`). Everything that is known about single blocks and variables follows from
this one statement.

What holds of the variables before a run holds after it, if no block of the program can end it (`run_preserves`).
-/

namespace BlockScript

open Text (trim isBlankText)
open Block (bares bares_cons)

/-! ## Environments that agree -/

namespace Env

/-- The two environments give the same answer for each of the names. -/
def AgreeOn (names : List String) (env env' : Env) : Prop := ∀ x ∈ names, env.get? x = env'.get? x

/-- The environment with values stored one after the other. -/
def storeAll (env : Env) (writes : List (String × Value)) : Env :=
  writes.foldl (fun env w => env.insert w.1 w.2) env

variable {env env' : Env} {names : List String}

theorem AgreeOn.mono {fewer : List String} (h : AgreeOn names env env') (hsub : ∀ x ∈ fewer, x ∈ names) :
    AgreeOn fewer env env' := fun x hx => h x (hsub x hx)

theorem AgreeOn.refl (names : List String) (env : Env) : AgreeOn names env env := fun _ _ => rfl

theorem AgreeOn.isDeclared_eq {x : String} (h : AgreeOn names env env') (hx : x ∈ names) :
    env.isDeclared x = env'.isDeclared x := by
  rw [isDeclared, isDeclared, h x hx]

theorem isDeclared_iff {x : String} : env.isDeclared x = true ↔ x ∈ env.names := by
  simp [isDeclared, get?, names]

theorem storeAll_cons (env : Env) (w : String × Value) (writes : List (String × Value)) :
    env.storeAll (w :: writes) = (env.insert w.1 w.2).storeAll writes := rfl

/-- Storing the same values keeps environments in agreement, on any names. -/
theorem AgreeOn.storeAll (h : AgreeOn names env env') (writes : List (String × Value)) :
    AgreeOn names (env.storeAll writes) (env'.storeAll writes) := by
  induction writes generalizing env env' with
  | nil => exact h
  | cons w writes ih =>
    rw [storeAll_cons, storeAll_cons]
    apply ih
    intro x hx
    rw [get?_insert, get?_insert, h x hx]

/-- A name under which nothing is stored keeps its value. -/
theorem get?_storeAll_of_forall_ne {x : String} (env : Env) {writes : List (String × Value)}
    (h : ∀ w ∈ writes, x ≠ w.1) : (env.storeAll writes).get? x = env.get? x := by
  induction writes generalizing env with
  | nil => rfl
  | cons w writes ih =>
    rw [storeAll_cons, ih _ fun w hw => h w (List.mem_cons_of_mem _ hw), get?_insert, if_neg (h w List.mem_cons_self)]

theorem foldl_declare (env : Env) (names : List String) :
    names.foldl Env.declare env = env.storeAll (names.map (·, 0)) := by
  induction names generalizing env with
  | nil => rfl
  | cons x names ih =>
    rw [List.foldl_cons, ih]
    rfl

theorem set_of_isDeclared {x : String} (h : env.isDeclared x = true) (v : Value) :
    env.set x v = .ok (env.storeAll [(x, v)]) := by
  rw [set, if_pos h]
  rfl

end Env

open Env (AgreeOn)

/-! ## Names that are mentioned -/

/-- The names among the tokens of an expression; a text without tokens has none. -/
def expressionNames (source : String) : List String :=
  match Token.scan source with
  | .ok ts => (ts.filter fun t => t.kind = .name).map Token.text
  | .error _ => []

/-- The names that the text of a block mentions: all trimmed pieces of a declaration, the trimmed target of a block that
stores, and the names in its expressions. What is inside the block does not count. -/
def Block.names : Block → List String
  | declare entries => (entries.flatMap (Text.splitOn ',')).map trim
  | assign target _ => [trim target]
  | calculate target expression => trim target :: expressionNames expression
  | cond lhs _ rhs _ => expressionNames lhs ++ expressionNames rhs

theorem Block.names_bare (b : Block) : b.bare.names = b.names := by
  cases b <;> rfl

theorem mem_names_of_mem_declaredNames {entries : List String} {x : String} (h : x ∈ declaredNames entries) :
    x ∈ (Block.declare entries).names := (List.mem_filter.1 h).1

/-! ## What a block does -/

section Expressions

variable {env env' : Env}

theorem Postfix.step_congr_env {t : Token} (h : t.kind = .name → env.get? t.text = env'.get? t.text) (y : Yard) :
    step env y t = step env' y t := by
  rw [step, step]
  cases hk : t.kind with
  | name => simp only [h hk]
  | _ => rfl

theorem Postfix.convert_congr_env {ts : List Token} (h : ∀ t ∈ ts, t.kind = .name → env.get? t.text = env'.get? t.text)
    (y : Yard) : convert env y ts = convert env' y ts := by
  induction ts generalizing y with
  | nil => rfl
  | cons t ts ih =>
    rw [convert, convert, step_congr_env (h t List.mem_cons_self)]
    congr 1
    funext ⟨items, y'⟩
    exact congrArg (· >>= _) (ih (fun t ht => h t (List.mem_cons_of_mem _ ht)) y')

/-- An expression depends on the variables it names and on no others. -/
theorem calculate_congr {source : String} (h : AgreeOn (expressionNames source) env env') :
    calculate env source = calculate env' source := by
  rw [calculate, calculate]
  rw [expressionNames] at h
  cases hscan : Token.scan source with
  | error e => rfl
  | ok ts =>
    rw [hscan] at h
    have hnames : ∀ t ∈ ts, t.kind = .name → env.get? t.text = env'.get? t.text := by
      intro t ht hk
      exact h t.text (List.mem_map.2 ⟨t, List.mem_filter.2 ⟨ht, by simpa using hk⟩, rfl⟩)
    change (Postfix.ofTokens env ts >>= Postfix.evaluate) = (Postfix.ofTokens env' ts >>= Postfix.evaluate)
    rw [Postfix.ofTokens, Postfix.ofTokens, Postfix.convert_congr_env hnames]

theorem blockValue_congr {source : String} (h : AgreeOn (expressionNames source) env env') :
    blockValue env source = blockValue env' source := by
  rw [blockValue, blockValue, calculate_congr h]

theorem condition_congr {lhs rhs : String} (op : Comparison)
    (h : AgreeOn (expressionNames lhs ++ expressionNames rhs) env env') :
    condition lhs op rhs env = condition lhs op rhs env' := by
  rw [condition, condition, blockValue_congr (h.mono fun x hx => List.mem_append_left _ hx),
    blockValue_congr (h.mono fun x hx => List.mem_append_right _ hx)]

end Expressions

namespace Block

variable {env : Env}

/-- What a block does in an environment, it does in all that agree with it on the names that the block mentions: it
fails with the same error, or it stores the same values, each under a name it mentions that is declared or can be. -/
def Decided (b : Block) (env : Env) : Prop :=
  (∃ e, ∀ env', AgreeOn b.names env env' → b.effect env' = .error e) ∨
  ∃ writes shuts, (∀ env', AgreeOn b.names env env' → b.effect env' = .ok (env'.storeAll writes, shuts)) ∧
    ∀ w ∈ writes, w.1 ∈ b.names ∧ (env.isDeclared w.1 = true ∨ Lexeme.isName w.1 = true)

theorem decided_declare (entries : List String) (env : Env) : (declare entries).Decided env := by
  cases hbad : (declaredNames entries).find? fun name => !Lexeme.isName name with
  | some x =>
    refine .inl ⟨.invalidIdentifier x, fun env' _ => ?_⟩
    simp only [effect, execDeclare, hbad]
    rfl
  | none =>
    refine .inr ⟨(declaredNames entries).map (·, 0), false, fun env' _ => ?_, fun w hw => ?_⟩
    · simp only [effect, execDeclare, hbad, Env.foldl_declare]
      rfl
    · obtain ⟨x, hx, rfl⟩ := List.mem_map.1 hw
      have hname : Lexeme.isName x = true := by simpa using List.find?_eq_none.1 hbad x hx
      exact ⟨mem_names_of_mem_declaredNames hx, .inr hname⟩

/-- The block stores a value under a name it mentions, once that is found to be declared and the value to be had. -/
theorem decided_of_store {b : Block} {env : Env} {target : String} (value : Except RunError Value)
    (hmem : target ∈ b.names)
    (h : ∀ env', AgreeOn b.names env env' → b.effect env' =
      if env'.isDeclared target then value.map fun v => (env'.storeAll [(target, v)], false)
      else .error (.undeclaredVariable target)) : b.Decided env := by
  cases hdeclared : env.isDeclared target with
  | false =>
    refine .inl ⟨.undeclaredVariable target, fun env' hagree => ?_⟩
    rw [h env' hagree, ← hagree.isDeclared_eq hmem, hdeclared]
    rfl
  | true =>
    have heffect : ∀ env', AgreeOn b.names env env' →
        b.effect env' = value.map fun v => (env'.storeAll [(target, v)], false) := by
      intro env' hagree
      rw [h env' hagree, ← hagree.isDeclared_eq hmem, hdeclared, if_pos rfl]
    cases value with
    | error e => exact .inl ⟨e, heffect⟩
    | ok v =>
      refine .inr ⟨[(target, v)], false, heffect, fun w hw => ?_⟩
      rw [List.mem_singleton.1 hw]
      exact ⟨hmem, .inl hdeclared⟩

theorem decided_assign (target literal : String) (env : Env) : (assign target literal).Decided env := by
  cases hblank : (trim target).isEmpty with
  | true =>
    refine .inr ⟨[], false, fun env' _ => ?_, List.forall_mem_nil _⟩
    simp only [effect, execAssign, execAssignWith, hblank, if_true]
    rfl
  | false =>
    refine decided_of_store ((Value.readLiteral? literal).elim (.error (.notAnInteger literal)) .ok)
      (List.mem_singleton_self (trim target)) fun env' _ => ?_
    simp only [effect, execAssign, execAssignWith, hblank]
    cases hdeclared : env'.isDeclared (trim target) with
    | false => rfl
    | true =>
      cases Value.readLiteral? literal with
      | none => rfl
      | some v =>
        change (env'.set (trim target) v).map (·, false) = _
        rw [Env.set_of_isDeclared hdeclared]
        rfl

theorem decided_calculate (target expression : String) (env : Env) : (calculate target expression).Decided env := by
  cases hblank : (trim target).isEmpty with
  | true =>
    refine .inl ⟨.missingOperand .targetVariable, fun env' _ => ?_⟩
    simp only [effect, execCalculate, execCalculateWith, hblank, if_true]
    rfl
  | false =>
    cases hempty : isBlankText expression with
    | true =>
      refine .inl ⟨.missingOperand .expression, fun env' _ => ?_⟩
      simp only [effect, execCalculate, execCalculateWith, hblank, hempty]
      rfl
    | false =>
      refine decided_of_store (blockValue env expression) List.mem_cons_self fun env' hagree => ?_
      have hvalue := blockValue_congr (hagree.mono fun x hx => List.mem_cons_of_mem (trim target) hx)
      rw [hvalue]
      simp only [effect, execCalculate, execCalculateWith, hblank, hempty]
      cases hdeclared : env'.isDeclared (trim target) with
      | false => rfl
      | true =>
        cases blockValue env' expression with
        | error e => rfl
        | ok v =>
          change (env'.set (trim target) v).map (·, false) = _
          rw [Env.set_of_isDeclared hdeclared]
          rfl

theorem decided_cond (lhs : String) (op : Comparison) (rhs : String) (body : List Block) (env : Env) :
    (cond lhs op rhs body).Decided env := by
  cases hholds : condition lhs op rhs env with
  | error e =>
    refine .inl ⟨e, fun env' h => ?_⟩
    rw [effect, ← condition_congr op h, hholds]
    rfl
  | ok holds =>
    refine .inr ⟨[], !holds, fun env' h => ?_, List.forall_mem_nil _⟩
    rw [effect, ← condition_congr op h, hholds]
    rfl

/-- **What a block does is decided by the names it mentions.** -/
theorem decided (b : Block) (env : Env) : b.Decided env := by
  cases b with
  | declare entries => exact decided_declare entries env
  | assign target literal => exact decided_assign target literal env
  | calculate target expression => exact decided_calculate target expression env
  | cond lhs op rhs body => exact decided_cond lhs op rhs body env

/-- What a block that does not fail does to the variables: it stores values under names it mentions. -/
theorem exists_writes {b : Block} {env env' : Env} {shuts : Bool} (h : b.effect env = .ok (env', shuts)) :
    ∃ writes, env' = env.storeAll writes ∧
      ∀ w ∈ writes, w.1 ∈ b.names ∧ (env.isDeclared w.1 = true ∨ Lexeme.isName w.1 = true) := by
  rcases b.decided env with ⟨e, he⟩ | ⟨writes, shuts', hok, hwrites⟩
  · rw [he env (AgreeOn.refl _ _)] at h
    cases h
  · rw [hok env (AgreeOn.refl _ _)] at h
    cases h
    exact ⟨writes, rfl, hwrites⟩

end Block

/-! ## What a run preserves -/

/-- **What no block of a program can end is kept by a run**, whether it fails or not. -/
theorem run_preserves {P : Env → Prop} {bs : List Block}
    (hstep : ∀ b ∈ bares bs, ∀ env env' shuts, b.effect env = .ok (env', shuts) → P env → P env') {env : Env}
    (h : P env) : P (run bs env).env := by
  induction bs using Block.sequence_induction generalizing env with
  | nil => rwa [run_nil]
  | cons b bs ihchildren ihbs =>
    simp only [bares_cons, List.mem_cons, List.mem_append] at hstep
    -- a block that fails leaves what it found; the others go on to what is inside them
    have hblock : P (b.exec env).env := by
      rw [Block.exec_eq]
      cases he : b.effect env with
      | error e => exact h
      | ok r =>
        obtain ⟨env', shuts⟩ := r
        have h' : P env' := hstep b.bare (.inl rfl) env env' shuts (by rw [Block.effect_bare, he]) h
        cases shuts with
        | true => exact h'
        | false => exact ihchildren (fun c hc => hstep c (.inr (.inl hc))) h'
    cases hfailure : (b.exec env).failure with
    | some f => rwa [run_cons_of_failure bs hfailure]
    | none =>
      rw [run_cons_of_success bs hfailure]
      exact ihbs (fun c hc => hstep c (.inr (.inr hc))) hblock

end BlockScript
