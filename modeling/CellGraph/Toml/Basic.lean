/-!
# TOML documents

A TOML document as a tree of items. A table remembers how it came about, because that decides which
later lines may add to it: a table that only stands on the way to another one may still be opened by
a header, one made by a dotted key may be extended by dotted keys, and an inline table is closed.

Reals and dates are told apart from the other values, but no setting holds one, so their values are
not kept.
-/

namespace CellGraph.Toml

/-- How a table came about. -/
inductive Origin where
  /-- By a header of its own. -/
  | header
  /-- As a step on the way of a header. -/
  | implied
  /-- As a step on the way of a dotted key. -/
  | dotted
  /-- Between braces. -/
  | inline
deriving DecidableEq, Repr

/-- An item of a document. -/
inductive Item where
  | string (s : String)
  | integer (i : Int)
  | real
  | boolean (b : Bool)
  | date
  | array (items : List Item)
  | table (origin : Origin) (fields : List (String × Item))
  /-- The tables of a repeated header, in order. -/
  | tables (elements : List (List (String × Item)))
deriving Repr, Inhabited

/-- The fields of a table. -/
abbrev Fields := List (String × Item)

namespace Fields

/-- Replaces the item under a key that is present. -/
def replace (key : String) (item : Item) : Fields → Fields
  | [] => []
  | (k, old) :: rest => if k = key then (k, item) :: rest else (k, old) :: replace key item rest

/-- Changes the last element of a list of tables, if there is one. -/
def changeLast? (f : Fields → Option Fields) : List Fields → Option (List Fields)
  | [] => none
  | [last] => (f last).map fun last => [last]
  | element :: elements => (changeLast? f elements).map (element :: ·)

/-- Adds a value under a dotted key. The steps on the way are made where they are missing; the table
that takes the value is the present one or one made by dotted keys, and has no such key yet. -/
def addValue? (key : String) (value : Item) : (path : List String) → Fields → Option Fields
  | [], fields => if (fields.lookup key).isSome then none else some (fields ++ [(key, value)])
  | step :: path, fields =>
    match fields.lookup step with
    | none => (addValue? key value path []).map fun inner => fields ++ [(step, .table .dotted inner)]
    | some (.table .dotted inner) =>
      (addValue? key value path inner).map fun inner =>
        replace step (.table .dotted inner) fields
    | some (.table .implied inner) =>
      if path = [] then none
      else (addValue? key value path inner).map fun inner =>
        replace step (.table .implied inner) fields
    | some (.tables elements) =>
      if path = [] then none
      else (changeLast? (addValue? key value path) elements).map fun elements =>
        replace step (.tables elements) fields
    | some _ => none

/-- Follows the steps of a header, making what is missing, and changes the table that they lead to. A
step into repeated tables goes to the last of them. -/
def follow? (f : Fields → Option Fields) : (path : List String) → Fields → Option Fields
  | [], fields => f fields
  | step :: path, fields =>
    match fields.lookup step with
    | none => (follow? f path []).map fun inner => fields ++ [(step, .table .implied inner)]
    | some (.table .inline _) => none
    | some (.table origin inner) =>
      (follow? f path inner).map fun inner => replace step (.table origin inner) fields
    | some (.tables elements) =>
      (changeLast? (follow? f path) elements).map fun elements =>
        replace step (.tables elements) fields
    | some _ => none

/-- Opens a table by its header, which may be new or have stood on the way of another header. -/
def openTable? (key : String) (fields : Fields) : Option Fields :=
  match fields.lookup key with
  | none => some (fields ++ [(key, .table .header [])])
  | some (.table .implied inner) => some (replace key (.table .header inner) fields)
  | some _ => none

/-- Opens one more table of a repeated header. -/
def openElement? (key : String) (fields : Fields) : Option Fields :=
  match fields.lookup key with
  | none => some (fields ++ [(key, .tables [[]])])
  | some (.tables elements) => some (replace key (.tables (elements ++ [[]])) fields)
  | some _ => none

end Fields

end CellGraph.Toml
