import CellGraph.Text.Blank
import CellGraph.Text.Parts
import CellGraph.Ast.Node

/-!
# Forms of a reference

A cell refers to another one plainly, as `viewof x` or as `mutable x`. The form decides the canonical
name of what is referred to and what stands in its place in the function's body. The name of a
cell's function comes from the canonical name of what it declares.
-/

namespace CellGraph.Extraction

open Ast

/-- The forms of a reference. -/
inductive Form where
  | plain
  | view
  | mutable
deriving DecidableEq, Repr

namespace Form

/-- The form of a node; whatever is neither a view nor a mutable expression counts as plain. -/
def of (node : Node) : Form :=
  match node.kind with
  | .viewExpression => view
  | .mutableExpression => mutable
  | _ => plain

/-- The word and blank in front of a name in this form. -/
def word : Form → String
  | plain => ""
  | view => "viewof "
  | mutable => "mutable "

/-- What stands for an occurrence of this form in the body, given its parameter; a plain reference
keeps its own text. -/
def replacement? (token : String) : Form → Option String
  | plain => none
  | view => some token
  | mutable => some (token ++ ".value")

end Form

/-- The canonical name of a reference or declaration: `x`, `viewof x` or `mutable x`. -/
def canonicalName? (node : Node) : Option String :=
  node.innerName?.map ((Form.of node).word ++ ·)

/-- The characters of a function's name. -/
def functionNameChars (declared : List Char) : List Char :=
  let name := match Text.dropFront? "mutable ".toList declared with
    | some rest => "mutable_initial_".toList ++ rest
    | none => declared
  name.map fun c => if Text.isBlank c then '_' else c

/-- The name of the function of a cell: `mutable x` becomes `mutable_initial_x`, and every blank
that is left an underscore. -/
def functionName (declared : String) : String :=
  String.ofList (functionNameChars declared.toList)

end CellGraph.Extraction
