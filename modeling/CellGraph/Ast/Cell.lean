import CellGraph.Error
import CellGraph.Json.Record
import CellGraph.Text.Bytes

/-!
# Parsed cells

A parsed cell is the text of a cell with its syntax tree: what it declares, its body, the nodes that
refer to other cells, and whether its function is asynchronous or a generator. Offsets in the tree
point into the text.
-/

namespace CellGraph

/-- The tree of a cell. -/
structure CellTree where
  /-- What the cell declares, if anything. -/
  id : Option Json
  body : Json
  references : List Json
  isAsync : Bool
  isGenerator : Bool
deriving Repr

/-- The text of a cell and its tree. -/
structure ParsedCell where
  input : String
  cell : CellTree
deriving Repr

open Ast (Node)
open Json (Reader)
open Json.Reader (required withDefault)

/-- Reads the tree of a cell. -/
def CellTree.reader : Reader CellTree := fun levels raw => do
  match ← Reader.record ["id", "body", "references", "async", "generator"] levels raw with
  | [id, body, references, isAsync, isGenerator] =>
    return {
      id := ← withDefault none (.nullable .json) levels id
      body := ← required .json levels body
      references := ← withDefault [] (.list .json) levels references
      isAsync := ← withDefault false .bool levels isAsync
      isGenerator := ← withDefault false .bool levels isGenerator
    }
  | _ => none

/-- Reads a parsed cell. -/
def ParsedCell.reader : Reader ParsedCell := fun levels raw => do
  match ← Reader.record ["input", "cell"] levels raw with
  | [input, cell] =>
    return {
      input := ← required .string levels input
      cell := ← required CellTree.reader levels cell
    }
  | _ => none

namespace ParsedCell

/-- The node of the body. -/
def body (p : ParsedCell) : Except Error Node :=
  match Node.ofJson? p.cell.body with
  | some node => .ok node
  | none => .error (.tree .bodyNotNode none)

/-- The node of what the cell declares. -/
def id? (p : ParsedCell) : Option Node :=
  p.cell.id.bind Node.ofJson?

/-- The nodes that refer to other cells. -/
def references (p : ParsedCell) : List Node :=
  p.cell.references.filterMap Node.ofJson?

/-- The text that a node covers. -/
def text (p : ParsedCell) (node : Node) : Except Error (List Char) :=
  match Text.slice? p.input.toList node.span.start node.span.stop with
  | some text => .ok text
  | none => .error (.tree .offsetsOutsideInput (some node.span))

end ParsedCell

end CellGraph
