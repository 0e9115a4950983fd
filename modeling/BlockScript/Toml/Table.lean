import BlockScript.Data

/-!
# Tables of TOML

The members of a table may be given in several places: under its header, under headers of tables inside it, and by
dotted keys. A table is open to only some of them, depending on how it came about:

* a header opens a table that is new, or that so far only stood in the paths of other headers;
* a dotted key goes through tables that it or other dotted keys made, and ends in one of these;
* neither goes into a value, and a header goes into the last table of a list of tables.
-/

namespace BlockScript.Toml

/-- How a table came about. -/
structure Origin where
  /-- It only stood in a path so far, and nobody has opened it. -/
  implicit : Bool
  /-- A dotted key made it. -/
  dotted : Bool

/-- A table that a header opened. -/
def Origin.header : Origin := ⟨false, false⟩

/-- A member of a table. -/
inductive Node where
  | value (d : Data)
  | table (origin : Origin) (members : List (String × Node))
  | tables (elements : List (List (String × Node)))

/-- The members of a table under way. -/
abbrev Members := List (String × Node)

namespace Members

/-- Puts a node in the place of the one with the same name. -/
def replace (name : String) (node : Node) (ms : Members) : Members :=
  ms.map fun (n, old) => if n == name then (n, node) else (n, old)

/-- Changes the members of the table at the end of a path. Tables that are missing on the way are made. -/
def alter (dotted : Bool) (change : Origin → Members → Option Members) :
    List String → Origin → Members → Option Members
  | [], origin, ms => change origin ms
  | name :: path, _, ms =>
    match ms.lookup name with
    | none => do
      let made : Origin := ⟨true, dotted⟩
      let inner ← alter dotted change path made []
      return ms ++ [(name, .table made inner)]
    | some (.value _) => none
    | some (.table origin inner) =>
      if dotted && !origin.implicit then none
      else do
        let inner ← alter dotted change path origin inner
        return ms.replace name (.table origin inner)
    | some (.tables elements) =>
      match elements.getLast? with
      | none => none
      | some last => do
        let last ← alter dotted change path .header last
        return ms.replace name (.tables (elements.dropLast ++ [last]))

/-- Gives a value to a key, which is dotted if its path is not empty. -/
def assign (path : List String) (name : String) (d : Data) (ms : Members) : Option Members :=
  alter true (fun origin inner =>
    if origin.dotted == path.isEmpty || (inner.lookup name).isSome then none
    else some (inner ++ [(name, .value d)])) path .header ms

/-- Gives values to keys in order. -/
def assignAll (entries : List (List String × String × Data)) (ms : Members) : Option Members :=
  entries.foldlM (fun ms (path, name, d) => ms.assign path name d) ms

/-- Opens the table with a header, and fills it. -/
def addTable (path : List String) (name : String) (fill : Members → Option Members) (ms : Members) :
    Option Members :=
  alter false (fun _ inner =>
    match inner.lookup name with
    | none => do return inner ++ [(name, .table .header (← fill []))]
    | some (.table ⟨true, false⟩ old) => do return inner.replace name (.table .header (← fill old))
    | some _ => none) path .header ms

/-- Opens a new table at the end of a list of tables, and fills it. -/
def addElement (path : List String) (name : String) (fill : Members → Option Members) (ms : Members) :
    Option Members :=
  alter false (fun _ inner =>
    match inner.lookup name with
    | none => do return inner ++ [(name, .tables [← fill []])]
    | some (.tables elements) => do return inner.replace name (.tables (elements ++ [← fill []]))
    | some _ => none) path .header ms

end Members

mutual

/-- The document value of a node. -/
def Node.toData : Node → Data
  | .value d => d
  | .table _ members => .record (membersToData members)
  | .tables elements => .list (elementsToData elements)

def Node.membersToData : List (String × Node) → List (String × Data)
  | [] => []
  | (name, node) :: ms => (name, node.toData) :: membersToData ms

def Node.elementsToData : List (List (String × Node)) → List Data
  | [] => []
  | ms :: elements => .record (membersToData ms) :: elementsToData elements

end

end BlockScript.Toml
