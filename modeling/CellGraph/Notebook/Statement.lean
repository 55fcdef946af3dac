import CellGraph.Notebook.Basic
import CellGraph.Text.Parts
import CellGraph.Text.Percent

/-!
# Import statements

An import cell as the statement that a reader of the notebook sees. Lists without pairs are left out,
and the source is encoded so that it cannot close its quotes.
-/

namespace CellGraph

open Text

/-- A pair of names as it is written: one name if both are the same, else with `as` between them. -/
def Binding.text (b : Binding) : String :=
  if b.name = b.newName then b.name else b.name ++ " as " ++ b.newName

namespace ImportCell

/-- Pairs between braces, with commas between them. -/
def braced (bindings : List Binding) : List Char :=
  '{' :: ' ' :: joinWith [',', ' '] (bindings.map fun b => b.text.toList) ++ [' ', '}']

/-- The characters of the statement. -/
def statementChars (cell : ImportCell) : List Char :=
  joinWith [' '] <|
    ["import".toList] ++
    (if cell.specifiers = [] then [] else [braced cell.specifiers]) ++
    (if cell.injections = [] then [] else ["with ".toList ++ braced cell.injections]) ++
    ["from".toList, '"' :: percentEncode cell.source.toList ++ ['"']]

/-- The import statement of a cell. -/
def statement (cell : ImportCell) : String :=
  String.ofList cell.statementChars

end ImportCell

end CellGraph
