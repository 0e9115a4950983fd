import BlockScript.Json.Token

/-!
# JSON values

`Json.read?` puts the tokens of a text together to one value. The containers that are still open are kept on a stack,
so values nest as deep as the text says. Members keep their order, and a name may come more than once.
-/

namespace BlockScript

/-- A JSON value as written. A string without a text holds a lone surrogate. -/
inductive Json where
  | null
  | bool (b : Bool)
  | number (numeral : String)
  | string (s : Option String)
  | array (items : List Json)
  | object (members : List (Option String × Json))

namespace Json

/-- A container that is still open, with what it holds so far, the latest first. -/
inductive Frame where
  | array (items : List Json)
  | object (members : List (Option String × Json))
  /-- An object whose latest member has a name but no value yet. -/
  | member (members : List (Option String × Json)) (name : Option String)

/-- What may come next. -/
inductive Expects where
  | value
  | valueOrEnd
  | nameOrEnd
  | name
  | colon
  | commaOrEnd
  | nothing (whole : Json)

/-- Where reading stands between two tokens. -/
structure Reader where
  frames : List Frame
  expects : Expects

namespace Reader

/-- Before the first token. -/
def start : Reader := ⟨[], .value⟩

/-- Puts a finished value where it belongs. -/
def supply (v : Json) : List Frame → Option Reader
  | [] => some ⟨[], .nothing v⟩
  | .array items :: frames => some ⟨.array (v :: items) :: frames, .commaOrEnd⟩
  | .member members name :: frames => some ⟨.object ((name, v) :: members) :: frames, .commaOrEnd⟩
  | .object _ :: _ => none

/-- Takes a token in where a value is expected. -/
def takeValue (frames : List Frame) : Token → Option Reader
  | .beginArray => some ⟨.array [] :: frames, .valueOrEnd⟩
  | .beginObject => some ⟨.object [] :: frames, .nameOrEnd⟩
  | .null => supply .null frames
  | .bool b => supply (.bool b) frames
  | .number numeral => supply (.number numeral) frames
  | .string s => supply (.string s) frames
  | _ => none

/-- Takes a token in where the name of a member is expected. -/
def takeName : List Frame → Token → Option Reader
  | .object members :: frames, .string name => some ⟨.member members name :: frames, .colon⟩
  | _, _ => none

/-- Takes in the token that ends the innermost container. -/
def takeEnd : List Frame → Token → Option Reader
  | .array items :: frames, .endArray => supply (.array items.reverse) frames
  | .object members :: frames, .endObject => supply (.object members.reverse) frames
  | _, _ => none

/-- Takes in a comma between two parts of the innermost container. -/
def takeComma : List Frame → Option Reader
  | .array items :: frames => some ⟨.array items :: frames, .value⟩
  | .object members :: frames => some ⟨.object members :: frames, .name⟩
  | _ => none

/-- Takes one token in, if it may come next. -/
def step (r : Reader) (t : Token) : Option Reader :=
  match r.expects, t with
  | .value, t => takeValue r.frames t
  | .valueOrEnd, .endArray => takeEnd r.frames .endArray
  | .valueOrEnd, t => takeValue r.frames t
  | .nameOrEnd, .endObject => takeEnd r.frames .endObject
  | .nameOrEnd, t => takeName r.frames t
  | .name, t => takeName r.frames t
  | .colon, .colon => some ⟨r.frames, .value⟩
  | .commaOrEnd, .comma => takeComma r.frames
  | .commaOrEnd, t => takeEnd r.frames t
  | _, _ => none

/-- The value that was read, if it is complete. -/
def result? (r : Reader) : Option Json :=
  match r.expects with
  | .nothing v => some v
  | _ => none

end Reader

/-- The value that a list of tokens spells. -/
def ofTokens? (ts : List Token) : Option Json := do
  let r ← ts.foldlM Reader.step .start
  r.result?

/-- The value that a text spells. -/
def read? (source : String) : Option Json := do
  let ts ← scan source.toList
  ofTokens? ts

end Json

end BlockScript
