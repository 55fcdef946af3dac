import CellGraph.Extraction.Desugar
import CellGraph.Extraction.Import

/-!
# Cells of a notebook from parsed cells

A parsed cell is an import cell or declares value cells. A batch of parsed cells is read in order and
ends at the first one that cannot be read.
-/

namespace CellGraph.Extraction

open Ast

/-- The cells of the notebook that one parsed cell stands for. -/
def descriptors (p : ParsedCell) : Except Error (List Descriptor) := do
  let body ← p.body
  if body.kind = .importDeclaration then
    return [.imports (← importCell p)]
  else
    let declaration ← Declaration.of p
    let extracted ← extract p
    return (desugar declaration extracted).map .value

/-- The cells of the notebook that a batch of parsed cells stands for. -/
def batch (cells : List ParsedCell) : Except Error (List Descriptor) := do
  return (← cells.mapM descriptors).flatten

end CellGraph.Extraction
