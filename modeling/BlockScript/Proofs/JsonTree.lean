import BlockScript.Json.Document
import BlockScript.Proofs.JsonText

/-!
# Reading back a written document

The tokens of a document are put together to a value, and the value is turned into a document again. `Spells ts v` says
that a stretch of tokens puts the value `v` in its place, whatever is open around it; items and members are followed
with what has been read before them. **The tokens of a document spell its value** (`Reader.spells_tokens`), and the
value is that document again, unless more is nested in it than may be (`toData?_ofData`, with `nesting` as the measure).
-/

namespace BlockScript.Json

/-! ## Values of documents -/

mutual

/-- The JSON value that a document is written as. -/
def ofData : Data → Json
  | .null | .moment => .null
  | .bool b => .bool b
  | .number numeral => .number numeral
  | .text s => .string (some s)
  | .list items => .array (ofItems items)
  | .record members => .object (ofMembers members)

def ofItems : List Data → List Json
  | [] => []
  | d :: ds => ofData d :: ofItems ds

def ofMembers : List (String × Data) → List (Option String × Json)
  | [] => []
  | (name, d) :: ms => (some name, ofData d) :: ofMembers ms

end

/-! ## Tokens to values -/

/-- Whether a value may come next. -/
def Expects.isValue : Expects → Bool
  | value | valueOrEnd => true
  | _ => false

namespace Reader

/-- Wherever a value may come, the tokens `ts` put the value `v` in its place. -/
def Spells (ts : List Token) (v : Json) : Prop :=
  ∀ frames expects, expects.isValue = true → ts.foldlM step ⟨frames, expects⟩ = supply v frames

/-- A token that opens a value is taken in wherever a value may come. -/
theorem step_of_isValue {t : Token} {frames : List Frame} {expects : Expects} (h : expects.isValue = true)
    (hend : t ≠ .endArray) : step ⟨frames, expects⟩ t = takeValue frames t := by
  cases expects with
  | value => rfl
  | valueOrEnd =>
    cases t with
    | endArray => exact absurd rfl hend
    | _ => rfl
  | _ => cases h

theorem spells_string (s : Option String) : Spells [.string s] (.string s) := by
  intro frames expects h
  rw [List.foldlM_cons, step_of_isValue h (by simp)]
  change supply (.string s) frames >>= pure = _
  rw [bind_pure]

section Tokens

variable {d : Data} {ds : List Data} {ms : List (String × Data)} (frames : List Frame)

theorem foldlM_itemTokens (h : ∀ d ∈ ds, Spells (tokens d) (ofData d)) (items : List Json) :
    (itemTokens ds).foldlM step ⟨.array items :: frames, .commaOrEnd⟩ =
      some ⟨.array ((ofItems ds).reverse ++ items) :: frames, .commaOrEnd⟩ := by
  induction ds generalizing items with
  | nil =>
    rw [itemTokens, ofItems]
    rfl
  | cons d ds ih =>
    have hitem := h d List.mem_cons_self (.array items :: frames) .value rfl
    have hitems := ih (fun d hd => h d (List.mem_cons_of_mem _ hd)) (ofData d :: items)
    rw [itemTokens, ofItems, List.foldlM_cons]
    -- the comma makes way for a value, and the value joins the items, which are kept last first
    change (tokens d ++ itemTokens ds).foldlM step ⟨.array items :: frames, .value⟩ = _
    rw [List.foldlM_append, hitem]
    change (itemTokens ds).foldlM step ⟨.array (ofData d :: items) :: frames, .commaOrEnd⟩ = _
    rw [hitems, List.reverse_cons, List.append_assoc]
    rfl

/-- A name, a colon and a value where a name may come. -/
theorem foldlM_member (h : Spells (tokens d) (ofData d)) (name : String) (members : List (Option String × Json))
    (ts : List Token) : (.colon :: (tokens d ++ ts)).foldlM step ⟨.member members (some name) :: frames, .colon⟩ =
      ts.foldlM step ⟨.object ((some name, ofData d) :: members) :: frames, .commaOrEnd⟩ := by
  have hvalue := h (.member members (some name) :: frames) .value rfl
  rw [List.foldlM_cons]
  change (tokens d ++ ts).foldlM step ⟨.member members (some name) :: frames, .value⟩ = _
  rw [List.foldlM_append, hvalue]
  rfl

theorem foldlM_memberTokens (h : ∀ m ∈ ms, Spells (tokens m.2) (ofData m.2))
    (members : List (Option String × Json)) :
    (memberTokens ms).foldlM step ⟨.object members :: frames, .commaOrEnd⟩ =
      some ⟨.object ((ofMembers ms).reverse ++ members) :: frames, .commaOrEnd⟩ := by
  induction ms generalizing members with
  | nil =>
    rw [memberTokens, ofMembers]
    rfl
  | cons m ms ih =>
    obtain ⟨name, d⟩ := m
    have hmember := foldlM_member frames (h (name, d) List.mem_cons_self) name members (memberTokens ms)
    have hmembers := ih (fun m hm => h m (List.mem_cons_of_mem _ hm)) ((some name, ofData d) :: members)
    rw [memberTokens, ofMembers, List.foldlM_cons]
    change (Token.string (some name) :: .colon :: (tokens d ++ memberTokens ms)).foldlM step
      ⟨.object members :: frames, .name⟩ = _
    rw [List.foldlM_cons]
    change (Token.colon :: (tokens d ++ memberTokens ms)).foldlM step
      ⟨.member members (some name) :: frames, .colon⟩ = _
    rw [hmember, hmembers, List.reverse_cons, List.append_assoc]
    rfl

theorem foldlM_endArray (items : List Json) :
    [Token.endArray].foldlM step ⟨.array items :: frames, .commaOrEnd⟩ = supply (.array items.reverse) frames := by
  change supply (.array items.reverse) frames >>= pure = _
  rw [bind_pure]

theorem foldlM_endObject (members : List (Option String × Json)) :
    [Token.endObject].foldlM step ⟨.object members :: frames, .commaOrEnd⟩ =
      supply (.object members.reverse) frames := by
  change supply (.object members.reverse) frames >>= pure = _
  rw [bind_pure]

end Tokens

theorem spells_list {ds : List Data} (h : ∀ d ∈ ds, Spells (tokens d) (ofData d)) :
    Spells (tokens (.list ds)) (ofData (.list ds)) := by
  intro frames expects he
  cases ds with
  | nil =>
    rw [tokens, ofData, ofItems, List.foldlM_cons, step_of_isValue he (by simp)]
    change supply (.array []) frames >>= pure = _
    rw [bind_pure]
  | cons d ds =>
    have hitem := h d List.mem_cons_self (.array [] :: frames) .valueOrEnd rfl
    have hitems := foldlM_itemTokens frames (fun d hd => h d (List.mem_cons_of_mem _ hd)) [ofData d]
    rw [tokens, ofData, ofItems, List.foldlM_cons, step_of_isValue he (by simp)]
    change (tokens d ++ (itemTokens ds ++ [Token.endArray])).foldlM step ⟨.array [] :: frames, .valueOrEnd⟩ = _
    rw [List.foldlM_append, hitem]
    change (itemTokens ds ++ [Token.endArray]).foldlM step ⟨.array [ofData d] :: frames, .commaOrEnd⟩ = _
    rw [List.foldlM_append, hitems]
    change [Token.endArray].foldlM step ⟨.array ((ofItems ds).reverse ++ [ofData d]) :: frames, .commaOrEnd⟩ = _
    rw [foldlM_endArray, List.reverse_append, List.reverse_reverse]
    rfl

theorem spells_record {ms : List (String × Data)} (h : ∀ m ∈ ms, Spells (tokens m.2) (ofData m.2)) :
    Spells (tokens (.record ms)) (ofData (.record ms)) := by
  intro frames expects he
  cases ms with
  | nil =>
    rw [tokens, ofData, ofMembers, List.foldlM_cons, step_of_isValue he (by simp)]
    change supply (.object []) frames >>= pure = _
    rw [bind_pure]
  | cons m ms =>
    obtain ⟨name, d⟩ := m
    have hmember := foldlM_member frames (h (name, d) List.mem_cons_self) name [] (memberTokens ms ++ [.endObject])
    have hmembers := foldlM_memberTokens frames (fun m hm => h m (List.mem_cons_of_mem _ hm)) [(some name, ofData d)]
    rw [tokens, ofData, ofMembers, List.foldlM_cons, step_of_isValue he (by simp)]
    change (Token.colon :: (tokens d ++ (memberTokens ms ++ [.endObject]))).foldlM step
      ⟨.member [] (some name) :: frames, .colon⟩ = _
    rw [hmember, List.foldlM_append, hmembers]
    change [Token.endObject].foldlM step
      ⟨.object ((ofMembers ms).reverse ++ [(some name, ofData d)]) :: frames, .commaOrEnd⟩ = _
    rw [foldlM_endObject, List.reverse_append, List.reverse_reverse]
    rfl

/-- **The tokens of a document spell its value.** -/
theorem spells_tokens {d : Data} (h : Textual d) : Spells (tokens d) (ofData d) := by
  induction h with
  | text s =>
    rw [tokens, ofData]
    exact spells_string (some s)
  | list h ih => exact spells_list ih
  | record h ih => exact spells_record ih

end Reader

theorem ofTokens?_tokens {d : Data} (h : Textual d) : ofTokens? (tokens d) = some (ofData d) := by
  rw [ofTokens?, Reader.start, Reader.spells_tokens h [] .value rfl]
  rfl

theorem read?_pretty {d : Data} (h : Textual d) : read? (pretty d) = some (ofData d) := by
  rw [read?, scan_pretty h]
  exact ofTokens?_tokens h

/-! ## Values to documents -/

mutual

/-- How many lists and records of a document are nested in one another. -/
def nesting : Data → Nat
  | .list items => itemNesting items + 1
  | .record members => memberNesting members + 1
  | _ => 0

/-- The most that an item has. -/
def itemNesting : List Data → Nat
  | [] => 0
  | d :: ds => max (nesting d) (itemNesting ds)

/-- The most that the value of a member has. -/
def memberNesting : List (String × Data) → Nat
  | [] => 0
  | (_, d) :: ms => max (nesting d) (memberNesting ms)

end

theorem itemsToData?_ofItems {ds : List Data}
    (h : ∀ d ∈ ds, ∀ depth, nesting d ≤ depth → toData? depth (ofData d) = some d) {depth : Nat}
    (hdepth : itemNesting ds ≤ depth) : itemsToData? depth (ofItems ds) = some ds := by
  induction ds with
  | nil =>
    rw [ofItems, itemsToData?]
  | cons d ds ih =>
    rw [itemNesting, Nat.max_le] at hdepth
    rw [ofItems, itemsToData?, h d List.mem_cons_self depth hdepth.1,
      ih (fun d hd => h d (List.mem_cons_of_mem _ hd)) hdepth.2]
    rfl

theorem membersToData?_ofMembers {ms : List (String × Data)}
    (h : ∀ m ∈ ms, ∀ depth, nesting m.2 ≤ depth → toData? depth (ofData m.2) = some m.2) {depth : Nat}
    (hdepth : memberNesting ms ≤ depth) : membersToData? depth (ofMembers ms) = some ms := by
  induction ms with
  | nil =>
    rw [ofMembers, membersToData?]
  | cons m ms ih =>
    obtain ⟨name, d⟩ := m
    rw [memberNesting, Nat.max_le] at hdepth
    rw [ofMembers, membersToData?, h (name, d) List.mem_cons_self depth hdepth.1,
      ih (fun m hm => h m (List.mem_cons_of_mem _ hm)) hdepth.2]
    rfl

/-- **The value of a document is that document**, as long as not more is nested in it than may be. -/
theorem toData?_ofData {d : Data} (h : Textual d) {depth : Nat} (hdepth : nesting d ≤ depth) :
    toData? depth (ofData d) = some d := by
  induction h generalizing depth with
  | text s =>
    rw [ofData, toData?]
    rfl
  | list h ih =>
    cases depth with
    | zero => cases hdepth
    | succ depth =>
      rw [nesting, Nat.succ_le_succ_iff] at hdepth
      rw [ofData, toData?, itemsToData?_ofItems (fun d hd _ => ih d hd) hdepth]
      rfl
  | record h ih =>
    cases depth with
    | zero => cases hdepth
    | succ depth =>
      rw [nesting, Nat.succ_le_succ_iff] at hdepth
      rw [ofData, toData?, membersToData?_ofMembers (fun m hm _ => ih m hm) hdepth]
      rfl

end BlockScript.Json
