import CellGraph.Json.Basic

/-!
# Notebooks

A notebook is a list of cells, each a *value cell* or an *import cell*, with an object of metadata
that is carried along. A value cell is the text of a function together with the names that its
parameters stand for. An import cell names another notebook and pairs of names.
-/

namespace CellGraph

/-- A pair of names. For an import, `name` lives in the imported module and `newName` in the importing
one; for an injection it is the other way round. -/
structure Binding where
  name : String
  newName : String
deriving DecidableEq, Repr

/-- Literal arguments of resource calls: by the called name, then by the literal's key. -/
abbrev Constants := List (String × List (String × Json))

/-- A cell with a value. -/
structure ValueCell where
  /-- None for an anonymous cell. -/
  name : Option String
  /-- The names that the function's parameters stand for, in order. -/
  references : List String
  code : String
  constants : Option Constants
deriving Repr

/-- A cell that imports from another notebook. -/
structure ImportCell where
  source : String
  specifiers : List Binding
  injections : List Binding
deriving DecidableEq, Repr

/-- A cell of a notebook. -/
inductive Descriptor where
  | value (cell : ValueCell)
  | imports (cell : ImportCell)
deriving Repr

/-- A notebook. -/
structure Notebook where
  metadata : List (String × Json) := []
  cells : List Descriptor := []
deriving Repr

/-- The label that stands for a missing name. -/
def anonymousLabel : String := "<anonymous>"

/-- The name of a cell, or a label for an anonymous one. -/
def ValueCell.displayName (cell : ValueCell) : String :=
  cell.name.getD anonymousLabel

/-! ## Equality

Cells are equal when their parts are, with literals compared as JSON values. -/

/-- Equality of constants, their order aside. -/
def Constants.same (a b : Constants) : Bool :=
  let sameLiterals (x y : List (String × Json)) : Bool :=
    x.length == y.length && x.all fun (key, v) => (y.lookup key).any fun w => v.same w
  a.length == b.length && a.all fun (call, x) => (b.lookup call).any fun y => sameLiterals x y

/-- Equality of value cells. -/
def ValueCell.same (a b : ValueCell) : Bool :=
  a.name == b.name && a.references == b.references && a.code == b.code &&
    match a.constants, b.constants with
    | none, none => true
    | some x, some y => x.same y
    | _, _ => false

/-- Equality of cells. -/
def Descriptor.same : Descriptor → Descriptor → Bool
  | value a, value b => a.same b
  | imports a, imports b => a == b
  | _, _ => false

/-- Equality of lists of cells. -/
def Descriptor.sameList : List Descriptor → List Descriptor → Bool
  | [], [] => true
  | a :: as, b :: bs => a.same b && sameList as bs
  | _, _ => false

/-- Equality of notebooks. -/
def Notebook.same (a b : Notebook) : Bool :=
  Json.sameFields a.metadata b.metadata && Descriptor.sameList a.cells b.cells

end CellGraph
