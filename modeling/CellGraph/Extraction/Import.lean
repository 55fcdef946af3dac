import CellGraph.Notebook.Basic
import CellGraph.Ast.Cell

/-!
# Import declarations

Reads a cell that imports from another notebook. A binding marked as a view or a mutable brings in
the decorated name as well as the plain one, the decorated name first.
-/

namespace CellGraph.Extraction

open Ast

/-- The pairs of names that one binding brings in. -/
def bindingPairs (node : Node) : Except Error (List Binding) :=
  match (node.field? "imported").bind Node.name? with
  | none => .error (.tree .bindingUnnamed (some node.span))
  | some imported =>
    let binding := (((node.field? "local").bind Node.name?)).getD imported
    let decorated (word : String) : Binding := { name := word ++ imported, newName := word ++ binding }
    let plain : Binding := { name := imported, newName := binding }
    .ok <|
      if node.flag "view" then [decorated "viewof ", plain]
      else if node.flag "mutable" then [decorated "mutable ", plain]
      else [plain]

/-- The pairs of names of a list of bindings. -/
def bindings (nodes : List Node) : Except Error (List Binding) := do
  return (← nodes.mapM bindingPairs).flatten

/-- The import cell that a parsed cell is. -/
def importCell (p : ParsedCell) : Except Error ImportCell := do
  let body ← p.body
  if body.kind ≠ .importDeclaration then
    throw (.tree (.notImport body.typeName) (some body.span))
  match ((body.field? "source").bind Node.literal?).bind Json.string? with
  | none => throw (.tree .importWithoutSource (some body.span))
  | some source =>
    return {
      source
      specifiers := ← bindings (body.list "specifiers")
      injections := ← bindings (body.list "injections")
    }

end CellGraph.Extraction
