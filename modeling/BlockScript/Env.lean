import BlockScript.Run.Error
import BlockScript.Value.Basic

/-!
# Environments

One flat scope of variables, kept in the order in which they were first declared. No name comes twice.
-/

namespace BlockScript

/-- The variables with their values, in declaration order. -/
structure Env where
  vars : List (String × Value)
  /-- The names are distinct. -/
  nodup : (vars.map (·.1)).Nodup
deriving DecidableEq

namespace Env

/-- No variable is declared. -/
def empty : Env := ⟨[], List.nodup_nil⟩

/-- The value of a variable, if it is declared. -/
def get? (env : Env) (name : String) : Option Value := env.vars.lookup name

def isDeclared (env : Env) (name : String) : Bool := (env.get? name).isSome

/-- The names in declaration order. -/
def names (env : Env) : List String := env.vars.map (·.1)

/-- Stores a value under a name: in the name's place if it has one, else at the end. -/
def store (name : String) (v : Value) : List (String × Value) → List (String × Value)
  | [] => [(name, v)]
  | (x, w) :: vars => if x = name then (x, v) :: vars else (x, w) :: store name v vars

theorem lookup_store (name : String) (v : Value) (vars : List (String × Value)) (x : String) :
    (store name v vars).lookup x = if x = name then some v else vars.lookup x := by
  induction vars with
  | nil =>
    rw [store, List.lookup_cons]
    by_cases hx : x = name
    · simp [hx]
    · simp [hx, beq_false_of_ne hx]
  | cons b vars ih =>
    obtain ⟨y, w⟩ := b
    rw [store]
    by_cases hy : y = name
    · subst hy
      rw [if_pos rfl, List.lookup_cons, List.lookup_cons]
      by_cases hx : x = y
      · simp [hx]
      · simp [hx, beq_false_of_ne hx]
    · rw [if_neg hy, List.lookup_cons, List.lookup_cons, ih]
      by_cases hx : x = y
      · subst hx
        simp [hy]
      · simp [beq_false_of_ne hx]

/-- A name that is stored already keeps its place, and a new one comes last. -/
theorem map_fst_store (name : String) (v : Value) (vars : List (String × Value)) :
    (store name v vars).map (·.1) =
      if name ∈ vars.map (·.1) then vars.map (·.1) else vars.map (·.1) ++ [name] := by
  induction vars with
  | nil => simp [store]
  | cons b vars ih =>
    obtain ⟨y, w⟩ := b
    by_cases hy : y = name
    · simp [store, hy]
    · rw [store, if_neg hy, List.map_cons, ih]
      by_cases hm : name ∈ vars.map (·.1)
      · simp [hm]
      · simp [hm, Ne.symm hy]

theorem nodup_map_fst_store (name : String) (v : Value) {vars : List (String × Value)} (h : (vars.map (·.1)).Nodup) :
    ((store name v vars).map (·.1)).Nodup := by
  rw [map_fst_store]
  by_cases hm : name ∈ vars.map (·.1)
  · rwa [if_pos hm]
  · rw [if_neg hm, List.nodup_append]
    refine ⟨h, by simp, ?_⟩
    rintro x hx y hy rfl
    exact hm (List.mem_singleton.1 hy ▸ hx)

/-- The environment with a value stored under a name. -/
def insert (env : Env) (name : String) (v : Value) : Env :=
  ⟨store name v env.vars, nodup_map_fst_store name v env.nodup⟩

theorem get?_insert (env : Env) (name : String) (v : Value) (x : String) :
    (env.insert name v).get? x = if x = name then some v else env.get? x := lookup_store name v env.vars x

theorem names_insert (env : Env) (name : String) (v : Value) :
    (env.insert name v).names = if name ∈ env.names then env.names else env.names ++ [name] :=
  map_fst_store name v env.vars

/-- Declares a variable with value 0; one that is declared already is reset and keeps its place. -/
def declare (env : Env) (name : String) : Env := env.insert name 0

/-- Changes a variable, which has to be declared. -/
def set (env : Env) (name : String) (v : Value) : Except RunError Env :=
  if env.isDeclared name then .ok (env.insert name v) else .error (.undeclaredVariable name)

/-- The environment of a list of bindings; a name that comes again keeps its first place and takes its last value. -/
def ofList (bindings : List (String × Value)) : Env :=
  bindings.foldl (fun env (name, v) => env.insert name v) empty

def size (env : Env) : Nat := env.vars.length

def isEmpty (env : Env) : Bool := env.vars.isEmpty

end Env

end BlockScript
