import CellGraph.Ast.Cell

/-!
# Declarations

What a value cell declares, read off its `id`: nothing, a plain name, a view or a mutable.
-/

namespace CellGraph.Extraction

open Ast

/-- What a value cell declares. -/
inductive Declaration where
  | anonymous
  | plain (name : String)
  | view (name : String)
  | mutable (name : String)
deriving DecidableEq, Repr

/-- The declaration of a cell. A view or mutable needs a name inside; any other node without a name
declares nothing. -/
def Declaration.of (p : ParsedCell) : Except Error Declaration :=
  match p.id? with
  | none => .ok anonymous
  | some id =>
    match id.kind, id.innerName? with
    | .viewExpression, some name => .ok (view name)
    | .mutableExpression, some name => .ok (mutable name)
    | .viewExpression, none | .mutableExpression, none =>
      .error (.tree .declarationUnnamed (some id.span))
    | _, some name => .ok (plain name)
    | _, none => .ok anonymous

end CellGraph.Extraction
