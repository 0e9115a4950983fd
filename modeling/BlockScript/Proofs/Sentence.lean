import BlockScript.Proofs.Phrase

/-!
# Sentences of the infix grammar

A list of kinds of lexemes is a sentence if it is written by some derivation tree (`Sentence`). A scan from left to
right that knows whether an operand is expected next and how many parentheses are open decides this (`follows`,
`sentence_iff_follows`). Each tree is accepted, by induction on the tree (`follows_phrase`). For the converse, what
has been read is kept as an invariant of the scan (`HasRead`): in every open parenthesis stands a sentence, or
something that becomes a sentence with any unary phrase behind it.

In a sentence no operand begins right behind the end of another one (`apart_of_follows`).
-/

namespace BlockScript

open Lexeme (Kind)

variable {l : Level}

/-- The kinds of the lexemes of a phrase. -/
def Phrase.kinds (e : Phrase l) : List Kind := e.lexemes.map Lexeme.kind

/-- The kinds of lexemes are those of an expression of the grammar. -/
def Sentence (ks : List Kind) : Prop := ∃ e : Phrase .sum, e.kinds = ks

/-! ## Deciding sentences -/

/-- Whether the kinds may follow where an operand is expected, or where one has just ended, inside `depth` open
parentheses. -/
def follows : (expectsOperand : Bool) → (depth : Nat) → List Kind → Bool
  | expectsOperand, depth, [] => !expectsOperand && depth == 0
  | true, depth, .number :: ks => follows false depth ks
  | true, depth, .name :: ks => follows false depth ks
  | true, depth, .openParen :: ks => follows true (depth + 1) ks
  | true, depth, .arith .sub :: ks => follows true depth ks
  | false, depth, .arith _ :: ks => follows true depth ks
  | false, depth + 1, .closeParen :: ks => follows false depth ks
  | _, _, _ :: _ => false

namespace Phrase

theorem kinds_sumJoin (e : Phrase .sum) (op : SumOp) (t : Phrase .product) :
    (sumJoin e op t).kinds = e.kinds ++ .arith op.op :: t.kinds := by
  simp [kinds, lexemes, Lexeme.arith]

theorem kinds_productJoin (t : Phrase .product) (op : ProductOp) (u : Phrase .unary) :
    (productJoin t op u).kinds = t.kinds ++ .arith op.op :: u.kinds := by
  simp [kinds, lexemes, Lexeme.arith]

theorem kinds_neg (u : Phrase .unary) : (neg u).kinds = .arith .sub :: u.kinds := by
  simp [kinds, lexemes, Lexeme.arith]

theorem kinds_paren (e : Phrase .sum) : (paren e).kinds = .openParen :: (e.kinds ++ [.closeParen]) := by
  simp [kinds, lexemes, Lexeme.opening, Lexeme.closing]

/-- A phrase takes the scan from where an operand is expected to where one has ended. -/
theorem follows_phrase (e : Phrase l) (depth : Nat) (ks : List Kind) :
    follows true depth (e.kinds ++ ks) = follows false depth ks := by
  induction e generalizing depth ks with
  | sum t ih => exact ih depth ks
  | product u ih => exact ih depth ks
  | unary a ih => exact ih depth ks
  | number n => rfl
  | name x => rfl
  | sumJoin e op t ihe iht => rw [kinds_sumJoin, List.append_assoc, ihe, List.cons_append, follows, iht]
  | productJoin t op u iht ihu => rw [kinds_productJoin, List.append_assoc, iht, List.cons_append, follows, ihu]
  | neg u ih => rw [kinds_neg, List.cons_append, follows, ih]
  | paren e ih =>
    rw [kinds_paren, List.cons_append, follows, List.append_assoc, ih]
    rfl

end Phrase

/-! ## What has been read -/

/-- What has been read since the last open parenthesis: a sentence where an operand has just ended, and where one is
expected, something that any unary phrase makes a sentence. -/
def Begun : (expectsOperand : Bool) → List Kind → Prop
  | false, w => Sentence w
  | true, w => ∀ u : Phrase .unary, Sentence (w ++ u.kinds)

theorem begun_nil : Begun true [] := fun u => ⟨.sum (.product u), rfl⟩

theorem Begun.atom {w : List Kind} (h : Begun true w) (a : Phrase .atom) : Begun false (w ++ a.kinds) := h (.unary a)

theorem Begun.number {w : List Kind} (h : Begun true w) : Begun false (w ++ [.number]) := by
  have hn := h.atom (.number ⟨['0'], [], by decide, by decide⟩)
  exact hn

theorem Begun.name {w : List Kind} (h : Begun true w) : Begun false (w ++ [.name]) := by
  have hx := h.atom (.name ⟨'x', [], by decide, by decide⟩)
  exact hx

theorem Begun.neg {w : List Kind} (h : Begun true w) : Begun true (w ++ [.arith .sub]) := by
  intro u
  rw [List.append_assoc]
  exact h (.neg u)

/-- An operator behind a sentence opens a new last summand or a new last factor. -/
theorem Begun.arith {w : List Kind} (h : Begun false w) (op : BinaryOp) : Begun true (w ++ [.arith op]) := by
  obtain ⟨e, rfl⟩ := h
  intro u
  have hsum : ∀ o : SumOp, Sentence (e.kinds ++ [.arith o.op] ++ u.kinds) := fun o =>
    ⟨.sumJoin e o (.product u), by rw [Phrase.kinds_sumJoin]; simp; rfl⟩
  have hproduct : ∀ o : ProductOp, Sentence (e.kinds ++ [.arith o.op] ++ u.kinds) := by
    intro o
    cases e with
    | sum t =>
      refine ⟨.sum (.productJoin t o u), ?_⟩
      change (Phrase.productJoin t o u).kinds = t.kinds ++ [.arith o.op] ++ u.kinds
      rw [Phrase.kinds_productJoin, List.append_assoc]
      rfl
    | sumJoin e o' t =>
      refine ⟨.sumJoin e o' (.productJoin t o u), ?_⟩
      rw [Phrase.kinds_sumJoin, Phrase.kinds_sumJoin, Phrase.kinds_productJoin]
      simp
  cases op with
  | add => exact hsum .add
  | sub => exact hsum .sub
  | mul => exact hproduct .mul
  | div => exact hproduct .div
  | rem => exact hproduct .rem

/-- All that has been read inside `depth` open parentheses. -/
def HasRead (expectsOperand : Bool) : (depth : Nat) → List Kind → Prop
  | 0, w => Begun expectsOperand w
  | depth + 1, w => ∃ v v', w = v ++ .openParen :: v' ∧ HasRead true depth v ∧ Begun expectsOperand v'

/-- What happens behind the last open parenthesis leaves the rest alone. -/
theorem HasRead.append {q q' : Bool} {depth : Nat} {w ks : List Kind} (h : HasRead q depth w)
    (hks : ∀ v, Begun q v → Begun q' (v ++ ks)) : HasRead q' depth (w ++ ks) := by
  cases depth with
  | zero => exact hks w h
  | succ depth =>
    obtain ⟨v, v', rfl, hv, hv'⟩ := h
    exact ⟨v, v' ++ ks, by simp, hv, hks v' hv'⟩

theorem HasRead.close {depth : Nat} {w : List Kind} (h : HasRead false (depth + 1) w) :
    HasRead false depth (w ++ [.closeParen]) := by
  obtain ⟨v, v', rfl, hv, e, rfl⟩ := h
  rw [List.append_assoc, List.cons_append, ← Phrase.kinds_paren]
  exact hv.append fun _ hb => hb.atom (.paren e)

/-- A scan that succeeds has read a sentence. -/
theorem HasRead.sentence {q : Bool} {depth : Nat} {w ks : List Kind} (h : HasRead q depth w)
    (hks : follows q depth ks = true) : Sentence (w ++ ks) := by
  fun_induction follows q depth ks generalizing w with
  | case1 q depth =>
    obtain ⟨rfl, rfl⟩ : q = false ∧ depth = 0 := by simpa using hks
    rw [List.append_nil]
    exact h
  | case2 depth ks ih =>
    rw [List.append_cons]
    exact ih (h.append fun _ hb => hb.number) hks
  | case3 depth ks ih =>
    rw [List.append_cons]
    exact ih (h.append fun _ hb => hb.name) hks
  | case4 depth ks ih =>
    rw [List.append_cons]
    exact ih ⟨w, [], rfl, h, begun_nil⟩ hks
  | case5 depth ks ih =>
    rw [List.append_cons]
    exact ih (h.append fun _ hb => hb.neg) hks
  | case6 depth op ks ih =>
    rw [List.append_cons]
    exact ih (h.append fun _ hb => hb.arith op) hks
  | case7 depth ks ih =>
    rw [List.append_cons]
    exact ih h.close hks
  | case8 => cases hks

/-- **The scan decides the grammar.** -/
theorem sentence_iff_follows {ks : List Kind} : Sentence ks ↔ follows true 0 ks = true := by
  constructor
  · rintro ⟨e, rfl⟩
    have h := e.follows_phrase 0 []
    rw [List.append_nil] at h
    rw [h]
    rfl
  · intro h
    have hread : HasRead true 0 [] := begun_nil
    exact hread.sentence h

instance (ks : List Kind) : Decidable (Sentence ks) := decidable_of_iff _ sentence_iff_follows.symm

/-! ## Operands side by side -/

/-- An operand may begin with such a lexeme, if it does not begin with a minus. -/
def Lexeme.Kind.startsOperand : Kind → Bool
  | .number | .name | .openParen => true
  | _ => false

/-- An operand may end with such a lexeme. -/
def Lexeme.Kind.endsOperand : Kind → Bool
  | .number | .name | .closeParen => true
  | _ => false

/-- Somewhere an operand begins right behind the end of another one. -/
def Juxtaposed (ks : List Kind) : Prop :=
  ∃ before a b after, ks = before ++ a :: b :: after ∧ a.endsOperand = true ∧ b.startsOperand = true

/-- No operand begins right behind the end of another one, nor at the front unless one is expected there. -/
def Apart (expectsOperand : Bool) (ks : List Kind) : Prop :=
  (∀ k ∈ ks.head?, k.startsOperand = true → expectsOperand = true) ∧ ¬ Juxtaposed ks

theorem juxtaposed_cons {k : Kind} {ks : List Kind} :
    Juxtaposed (k :: ks) ↔ (∃ b ∈ ks.head?, k.endsOperand = true ∧ b.startsOperand = true) ∨ Juxtaposed ks := by
  constructor
  · rintro ⟨before, a, b, after, heq, ha, hb⟩
    cases before with
    | nil =>
      obtain ⟨rfl, rfl⟩ : k = a ∧ ks = b :: after := by simpa using heq
      exact Or.inl ⟨b, rfl, ha, hb⟩
    | cons c before =>
      obtain ⟨rfl, rfl⟩ : k = c ∧ ks = before ++ a :: b :: after := by simpa using heq
      exact Or.inr ⟨before, a, b, after, rfl, ha, hb⟩
  · rintro (⟨b, hb, hk, hs⟩ | ⟨before, a, b, after, rfl, ha, hb⟩)
    · obtain ⟨after, rfl⟩ : ∃ after, ks = b :: after := by
        cases ks with
        | nil => cases hb
        | cons c ks => cases hb; exact ⟨ks, rfl⟩
      exact ⟨[], k, b, after, rfl, hk, hs⟩
    · exact ⟨k :: before, a, b, after, rfl, ha, hb⟩

theorem apart_cons {q : Bool} {k : Kind} {ks : List Kind} :
    Apart q (k :: ks) ↔ (k.startsOperand = true → q = true) ∧ Apart (!k.endsOperand) ks := by
  rw [Apart, Apart, juxtaposed_cons]
  constructor
  · rintro ⟨hk, hj⟩
    refine ⟨hk k rfl, fun b hb hs => ?_, fun h => hj (Or.inr h)⟩
    cases he : k.endsOperand with
    | false => rfl
    | true => exact absurd (Or.inl ⟨b, hb, he, hs⟩) hj
  · rintro ⟨hk, hb, hj⟩
    refine ⟨fun c hc => by cases hc; exact hk, ?_⟩
    rintro (⟨b, hm, he, hs⟩ | h)
    · rw [he] at hb
      cases hb b hm hs
    · exact hj h

theorem apart_of_follows {q : Bool} {depth : Nat} {ks : List Kind} (h : follows q depth ks = true) : Apart q ks := by
  fun_induction follows q depth ks with
  | case1 q depth => exact ⟨nofun, fun ⟨_, _, _, _, heq, _⟩ => by simp at heq⟩
  | case2 depth ks ih => exact apart_cons.2 ⟨fun _ => rfl, ih h⟩
  | case3 depth ks ih => exact apart_cons.2 ⟨fun _ => rfl, ih h⟩
  | case4 depth ks ih => exact apart_cons.2 ⟨fun _ => rfl, ih h⟩
  | case5 depth ks ih => exact apart_cons.2 ⟨fun _ => rfl, ih h⟩
  | case6 depth op ks ih => exact apart_cons.2 ⟨nofun, ih h⟩
  | case7 depth ks ih => exact apart_cons.2 ⟨nofun, ih h⟩
  | case8 => cases h

end BlockScript
