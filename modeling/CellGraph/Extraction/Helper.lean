import CellGraph.Extraction.Form
import CellGraph.FunctionText

/-!
# Helper cells

A view or mutable comes with cells that nobody wrote: the current value of a view, the mutable around
an initial value, and the current value of a mutable. Their functions are fixed but for the name, so
that a stored notebook shows them again (`Helper.recognize?`).
-/

namespace CellGraph.Extraction

open Text

/-- The generated helper cells. -/
inductive Helper where
  /-- The current value of a view. -/
  | viewValue
  /-- The mutable around an initial value. -/
  | mutableWrapper
  /-- The current value of a mutable. -/
  | mutableValue
deriving DecidableEq, Repr

namespace Helper

/-- The parameters of a helper's function. -/
def parameters : Helper → List String
  | viewValue => ["Generators", "$"]
  | mutableWrapper => ["Mutable", "$"]
  | mutableValue => ["$"]

/-- The body of a helper's function. -/
def body : Helper → String
  | viewValue => "\x7b return Generators.input($); \x7d"
  | mutableWrapper => "\x7b return new Mutable($); \x7d"
  | mutableValue => "\x7b return $.generator; \x7d"

/-- What stands in front of the cell's name in the name of a helper's function. -/
def nameFront : Helper → String
  | viewValue => "value_"
  | mutableWrapper => "mutable_"
  | mutableValue => "value_"

/-- The characters of a helper's function for a cell of the given name. -/
def codeChars (h : Helper) (name : String) : List Char :=
  FunctionKind.functionWord ++ ' ' :: functionNameChars (h.nameFront.toList ++ name.toList) ++
    '(' :: joinWith [',', ' '] (h.parameters.map String.toList) ++ ')' :: ' ' :: h.body.toList

/-- The function of a helper for a cell of the given name. -/
def code (h : Helper) (name : String) : String :=
  String.ofList (h.codeChars name)

/-- All helpers, in the order in which they are tried. -/
def all : List Helper :=
  [viewValue, mutableWrapper, mutableValue]

/-- The helper that a function is: a plain function with the helper's parameters and body, whatever
its name. -/
def recognize? (f : FunctionText) : Option Helper :=
  if f.kind = .plain then
    all.find? fun h => f.parameters = h.parameters ∧ f.body = h.body
  else none

end Helper

end CellGraph.Extraction
