import CellGraph.Json.Printer
import CellGraph.Json.Record
import CellGraph.Keyed
import CellGraph.Notebook.Basic

/-!
# Stored notebooks

The JSON form of notebooks. A cell is an object with a field `type` that is `cell` or `import`, or an
array with that tag in front of the fields; a tagged cell is understood as a whole, unknown fields
included. Metadata is any object. Constants keep the order of the text.
-/

namespace CellGraph

open Json (Raw Reader)
open Json.Reader (required withDefault)

namespace Binding

/-- Reads a pair of names. -/
def reader : Reader Binding := fun levels raw => do
  match ← Reader.record ["name", "alias"] levels raw with
  | [name, newName] =>
    return { name := ← required .string levels name, newName := ← required .string levels newName }
  | _ => none

/-- The stored form of a pair of names. -/
def document (b : Binding) : Json :=
  .object [("name", .string b.name), ("alias", .string b.newName)]

end Binding

namespace Constants

/-- Reads constants; a repeated key keeps its place and takes the later value. -/
def reader : Reader Constants := fun levels raw =>
  (Reader.fields (fun levels raw => (Reader.fields .json levels raw).map Keyed.ofList) levels raw).map
    Keyed.ofList

/-- The stored form of constants. -/
def document (c : Constants) : Json :=
  .object (c.map fun (call, literals) => (call, .object literals))

end Constants

namespace ValueCell

/-- Reads a value cell without its tag. -/
def reader : Reader ValueCell := fun levels raw => do
  match ← Reader.record ["name", "references", "code", "constants"] levels raw with
  | [name, references, code, constants] =>
    return {
      name := ← withDefault none (.nullable .string) levels name
      references := ← withDefault [] (.list .string) levels references
      code := ← required .string levels code
      constants := ← withDefault none (.nullable Constants.reader) levels constants
    }
  | _ => none

/-- The fields of a stored value cell; constants are left out when there are none. -/
def fields (c : ValueCell) : List (String × Json) :=
  [("name", c.name.elim .null .string), ("references", .array (c.references.map .string)),
    ("code", .string c.code)] ++
    c.constants.elim [] fun constants => [("constants", constants.document)]

end ValueCell

namespace ImportCell

/-- Reads an import cell without its tag. -/
def reader : Reader ImportCell := fun levels raw => do
  match ← Reader.record ["source", "specifiers", "injections"] levels raw with
  | [source, specifiers, injections] =>
    return {
      source := ← required .string levels source
      specifiers := ← withDefault [] (.list Binding.reader) levels specifiers
      injections := ← withDefault [] (.list Binding.reader) levels injections
    }
  | _ => none

/-- The fields of a stored import cell. -/
def fields (c : ImportCell) : List (String × Json) :=
  [("source", .string c.source), ("specifiers", .array (c.specifiers.map Binding.document)),
    ("injections", .array (c.injections.map Binding.document))]

end ImportCell

namespace Descriptor

/-- The tag of a cell and the text of its fields: the field `type` of an object, which may be given
only once, or the first item of an array. -/
def tag? : Raw → Option (String × Raw)
  | .object fields => do
    match ← Reader.unique? "type" fields with
    | some (.string (some tag)) => some (tag, .object fields)
    | _ => none
  | .array (.string (some tag) :: items) => some (tag, .array items)
  | _ => none

/-- Reads a cell. -/
def reader : Reader Descriptor := fun levels raw => do
  let _ ← Raw.value? levels raw
  let (tag, raw) ← tag? raw
  match tag with
  | "cell" => (ValueCell.reader levels raw).map .value
  | "import" => (ImportCell.reader levels raw).map .imports
  | _ => none

/-- The stored form of a cell. -/
def document : Descriptor → Json
  | value cell => .object (("type", .string "cell") :: cell.fields)
  | imports cell => .object (("type", .string "import") :: cell.fields)

end Descriptor

namespace Notebook

/-- Reads a notebook. -/
def reader : Reader Notebook := fun levels raw => do
  match ← Reader.record ["meta", "cells"] levels raw with
  | [metadata, cells] =>
    return {
      metadata := ← withDefault [] objectFields levels metadata
      cells := ← withDefault [] (.list Descriptor.reader) levels cells
    }
  | _ => none
where
  /-- The fields of an object of any values. -/
  objectFields : Reader (List (String × Json)) := fun levels raw => do
    match ← Raw.value? levels raw with
    | .object fields => return fields
    | _ => none

/-- The stored form of a notebook. -/
def document (n : Notebook) : Json :=
  .object [("meta", .object n.metadata), ("cells", .array (n.cells.map Descriptor.document))]

/-- Reads the text of a stored notebook. -/
def parse? (text : String) : Option Notebook :=
  Reader.parse? reader text

/-- The text of a stored notebook. -/
def render (n : Notebook) : String :=
  n.document.pretty

end Notebook

end CellGraph
