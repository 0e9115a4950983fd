/-!
# Results that may be errors

What is known of the parts of a computation whose result is known: it was one computation behind another
(`bind_eq_ok_iff`, `bind_eq_error_iff`), or its value or its error was changed afterwards. `FailsWith P r` says that no
errors but those with `P` come out of `r`; a computation in two steps fails with the errors of its steps
(`FailsWith.bind`).
-/

namespace BlockScript

variable {ε δ α β : Type} {r : Except ε α} {e e' : ε} {d : δ} {a : α} {b : β}

theorem error_eq_error_iff : (.error e' : Except ε α) = .error e ↔ e = e' := by
  rw [Except.error.injEq, eq_comm]

theorem map_eq_ok_iff {f : α → β} : r.map f = .ok b ↔ ∃ a, r = .ok a ∧ f a = b := by
  cases r with
  | error e => exact ⟨nofun, nofun⟩
  | ok a =>
    constructor
    · rintro ⟨⟩
      exact ⟨a, rfl, rfl⟩
    · rintro ⟨_, ⟨⟩, rfl⟩
      rfl

theorem map_eq_error_iff {f : α → β} : r.map f = .error e ↔ r = .error e := by
  cases r with
  | error e' =>
    constructor
    · rintro ⟨⟩
      rfl
    · rintro ⟨⟩
      rfl
  | ok a => exact ⟨nofun, nofun⟩

theorem mapError_eq_ok_iff {f : ε → δ} : r.mapError f = .ok a ↔ r = .ok a := by
  cases r with
  | error e => exact ⟨nofun, nofun⟩
  | ok a' =>
    constructor
    · rintro ⟨⟩
      rfl
    · rintro ⟨⟩
      rfl

theorem mapError_eq_error_iff {f : ε → δ} : r.mapError f = .error d ↔ ∃ e, r = .error e ∧ d = f e := by
  cases r with
  | error e =>
    constructor
    · rintro ⟨⟩
      exact ⟨e, rfl, rfl⟩
    · rintro ⟨_, ⟨⟩, rfl⟩
      rfl
  | ok a => exact ⟨nofun, nofun⟩

theorem bind_eq_ok_iff {f : α → Except ε β} : r >>= f = .ok b ↔ ∃ a, r = .ok a ∧ f a = .ok b := by
  cases r with
  | error e => exact ⟨nofun, nofun⟩
  | ok a =>
    constructor
    · intro h
      exact ⟨a, rfl, h⟩
    · rintro ⟨_, ⟨⟩, h⟩
      exact h

theorem bind_eq_error_iff {f : α → Except ε β} :
    r >>= f = .error e ↔ r = .error e ∨ ∃ a, r = .ok a ∧ f a = .error e := by
  cases r with
  | error e' =>
    constructor
    · rintro ⟨⟩
      exact .inl rfl
    · rintro (⟨⟨⟩⟩ | ⟨_, ⟨⟩, -⟩)
      rfl
  | ok a =>
    constructor
    · intro h
      exact .inr ⟨a, rfl, h⟩
    · rintro (⟨⟨⟩⟩ | ⟨_, ⟨⟩, h⟩)
      exact h

/-! ## Errors that can come up -/

/-- The computation fails with errors that have `P`, if it fails. -/
def FailsWith (P : ε → Prop) (r : Except ε α) : Prop := ∀ e, r = .error e → P e

section FailsWith

variable {P : ε → Prop} {f : α → Except ε β}

@[simp]
theorem failsWith_ok (a : α) : FailsWith P (.ok a) := nofun

@[simp]
theorem failsWith_error_iff : FailsWith P (.error e : Except ε α) ↔ P e := by
  constructor
  · intro h
    exact h e rfl
  · rintro h e' ⟨⟩
    exact h

theorem FailsWith.bind (hr : FailsWith P r) (hf : ∀ a, FailsWith P (f a)) : FailsWith P (r >>= f) := by
  intro e h
  rcases bind_eq_error_iff.1 h with h | ⟨a, -, h⟩
  · exact hr e h
  · exact hf a e h

end FailsWith

end BlockScript
