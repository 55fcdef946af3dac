import CellGraph.Json.Raw

/-!
# Reading records

A `Reader` understands a JSON text as a value of some type. Records are read by the names of their
fields: an object may give the fields in any order and others beside them, but none of the record's
own fields twice; an array gives the fields in their order, and may leave out the last ones. What a
missing field means is for the record to say: `required` or `withDefault`.
-/

namespace CellGraph.Json

/-- A way to understand a text, given how many arrays and objects may still be opened. -/
abbrev Reader (α : Type) := (levels : Nat) → Raw → Option α

namespace Reader

/-- A string. -/
def string : Reader String
  | _, .string s => s
  | _, _ => none

/-- A Boolean. -/
def bool : Reader Bool
  | _, .bool b => some b
  | _, _ => none

/-- Any value. -/
def json : Reader Json := Raw.value?

/-- An array with items of one kind. -/
def list {α : Type} (item : Reader α) : Reader (List α)
  | levels + 1, .array items => items.mapM (item levels)
  | _, _ => none

/-- A value, or none for `null`. -/
def nullable {α : Type} (inner : Reader α) : Reader (Option α)
  | _, .null => some none
  | levels, raw => (inner levels raw).map some

/-- The fields of an object in the order of the text, every value of one kind. -/
def fields {α : Type} (value : Reader α) : Reader (List (String × α))
  | levels + 1, .object fields => fields.mapM fun (key, raw) => do return (← key, ← value levels raw)
  | _, _ => none

/-! ## Records -/

/-- The one field of a name, which may be missing but not given twice. -/
def unique? (name : String) (fields : List (Option String × Raw)) : Option (Option Raw) :=
  match fields.filter fun (key, _) => key == some name with
  | [] => some none
  | [(_, raw)] => some (some raw)
  | _ => none

/-- The fields of a record by their names, none for a missing one, as many as there are names. -/
def record (names : List String) : Reader (List (Option Raw))
  | _ + 1, .object fields =>
    if fields.all fun (key, _) => key.isSome then names.mapM fun name => unique? name fields
    else none
  | _ + 1, .array items =>
    if items.length ≤ names.length then
      some (items.map some ++ List.replicate (names.length - items.length) none)
    else none
  | _, _ => none

/-- A field that may not be missing. -/
def required {α : Type} (value : Reader α) (levels : Nat) : Option Raw → Option α
  | some raw => value (levels - 1) raw
  | none => none

/-- A field that has a default. -/
def withDefault {α : Type} (default : α) (value : Reader α) (levels : Nat) : Option Raw → Option α
  | some raw => value (levels - 1) raw
  | none => some default

/-- Reads a whole text. -/
def parse? {α : Type} (reader : Reader α) (text : String) : Option α :=
  (Raw.parse? text).bind (reader Raw.maxDepth)

/-- Reads a value at hand, however deep it is. -/
def ofJson? {α : Type} (reader : Reader α) (j : Json) : Option α :=
  let raw := Raw.ofJson j
  reader raw.depth raw

end Reader

end CellGraph.Json
