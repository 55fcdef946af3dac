import CellGraph.Ast.Node

/-!
# Errors

`Fault` is what goes wrong while a graph is evaluated, `SyntaxFault` what is wrong with a cell's tree,
and `Error` all that can end a compilation. The texts are all here, in the two functions `message`.
-/

namespace CellGraph

/-- What goes wrong while a graph is evaluated. -/
inductive Fault where
  /-- No variable or builtin has the name. -/
  | notDefined (name : String)
  /-- The variable depends on itself. -/
  | circular (label : String)
  /-- A body failed. -/
  | evaluation (reason : String)
  /-- The variable was deleted. -/
  | deleted
  /-- The graph still changed after the allowed number of passes. -/
  | unsettled (passes : Nat)
deriving DecidableEq, Repr

/-- The text of a fault. -/
def Fault.message : Fault → String
  | notDefined name => name ++ " is not defined"
  | circular label => "circular definition involving " ++ label
  | evaluation reason => reason
  | deleted => "variable has been deleted"
  | unsettled passes => "graph did not settle after " ++ toString passes ++ " passes"

/-- What is wrong with the tree of a cell. -/
inductive SyntaxFault where
  | bodyNotNode
  | offsetsOutsideInput
  | occurrenceOutsideBody
  | declarationUnnamed
  | notImport (found : String)
  | importWithoutSource
  | bindingUnnamed
deriving DecidableEq, Repr

/-- The text of a fault in a tree. -/
def SyntaxFault.message : SyntaxFault → String
  | bodyNotNode => "cell body is not a syntax node"
  | offsetsOutsideInput => "node offsets fall outside the cell input"
  | occurrenceOutsideBody => "reference occurrence falls outside the cell body"
  | declarationUnnamed => "declaration has no name"
  | notImport found => "expected an import declaration, found `" ++ found ++ "`"
  | importWithoutSource => "import has no string source"
  | bindingUnnamed => "import binding has no imported name"

/-- What ends a compilation. -/
inductive Error where
  /-- The tree of a cell lacks something; the range is that of the offending node. -/
  | tree (fault : SyntaxFault) (span : Option Ast.Span)
  /-- The code of a cell is not a function. -/
  | functionText (code : String)
  /-- The code of a cell cannot be made to run. -/
  | compile (name reason : String)
  /-- The source of an import has no module. -/
  | resolve (source reason : String)
  /-- A fault of the graph. -/
  | graph (fault : Fault)
  /-- A text is not a stored notebook. -/
  | document
deriving DecidableEq, Repr

/-- The text of an error. -/
def Error.message : Error → String
  | tree fault _ => fault.message
  | functionText _ => "invalid function source"
  | compile name reason => "cannot compile cell `" ++ name ++ "`: " ++ reason
  | resolve source reason => "cannot resolve import from `" ++ source ++ "`: " ++ reason
  | graph fault => fault.message
  | document => "json error"

end CellGraph
