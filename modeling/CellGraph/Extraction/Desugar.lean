import CellGraph.Extraction.Declaration
import CellGraph.Extraction.Helper
import CellGraph.Extraction.References

/-!
# Declared cells

The cells that a declaration stands for. A view `x` is a cell `viewof x` and its current value `x`; a
mutable `x` is an initial value, the mutable `mutable x` and its current value `x`. Only the first
cell has the code that was written.
-/

namespace CellGraph.Extraction

/-- A helper cell. -/
def helperCell (name : String) (references : List String) (h : Helper) (base : String) : ValueCell :=
  { name := some name, references, code := h.code base, constants := none }

/-- The cells that a declaration stands for, the one that was written first. -/
def desugar (declaration : Declaration) (e : Extracted) : List ValueCell :=
  let own (name : Option String) : ValueCell :=
    { name, references := e.references, code := e.code, constants := e.constants }
  match declaration with
  | .anonymous => [own none]
  | .plain name => [own (some name)]
  | .view name =>
    [own (some ("viewof " ++ name)),
      helperCell name ["Generators", "viewof " ++ name] .viewValue name]
  | .mutable name =>
    [own (some ("mutable initial " ++ name)),
      helperCell ("mutable " ++ name) ["Mutable", "mutable initial " ++ name] .mutableWrapper name,
      helperCell name ["mutable " ++ name] .mutableValue name]

end CellGraph.Extraction
