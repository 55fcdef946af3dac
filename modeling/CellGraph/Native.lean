import CellGraph.Extraction.Helper
import CellGraph.Graph.Basic

/-!
# Bodies of cells

Makes the body of a variable from the code of a cell. The helper cells of views and mutables run
natively; the function of any other cell goes to the host, which knows its language.
-/

namespace CellGraph

variable {σ : Type}

/-- The host's way from the function of a cell to a body; it may use the world to set it up. -/
abbrev Instantiate (σ : Type) := FunctionText → ValueCell → World σ → Except Error (Body σ) × World σ

/-- A host that knows no language: every body fails. -/
def Instantiate.unavailable : Instantiate σ := fun _ cell world =>
  let fault := Fault.evaluation ("no evaluator for cell `" ++ cell.displayName ++ "`")
  (.ok fun _ world => { result := .error fault, world }, world)

namespace Body

/-- The current value of a view: the content of a mutable, the field `value` of an object that has
one, or the view itself. -/
def viewValue : Body σ := fun inputs world =>
  match inputs with
  | [.intrinsic .generators, view] =>
    let value := match view with
      | .mutable r => world.heap.content r
      | .data (.object fields) => ((fields.lookup "value").map Value.data).getD view
      | other => other
    { result := .ok value, world }
  | _ => { result := .error (.evaluation "Generators.input is not a function"), world }

/-- A new mutable around an initial value. -/
def mutableWrapper : Body σ := fun inputs world =>
  match inputs with
  | [.intrinsic .mutable, initial] =>
    let (r, heap) := world.heap.alloc initial
    { result := .ok (.mutable r), world := { world with heap } }
  | _ => { result := .error (.evaluation "Mutable is not a constructor"), world }

/-- The content of a mutable; any other value stands for itself. -/
def mutableValue : Body σ := fun inputs world =>
  match inputs with
  | [.mutable r] => { result := .ok (world.heap.content r), world }
  | [other] => { result := .ok other, world }
  | _ => { result := .error (.evaluation "expected one mutable input"), world }

end Body

/-- The native body of a helper cell. -/
def Extraction.Helper.native : Extraction.Helper → Body σ
  | .viewValue => Body.viewValue
  | .mutableWrapper => Body.mutableWrapper
  | .mutableValue => Body.mutableValue

/-- Makes the body of a cell. The function has to have one parameter for each reference. -/
def compileCell [Text.IdentifierTable] (instantiate : Instantiate σ) (cell : ValueCell) (world : World σ) :
    Except Error (Body σ) × World σ :=
  match FunctionText.parse? cell.code with
  | none => (.error (.functionText cell.code), world)
  | some f =>
    if f.parameters.length ≠ cell.references.length then
      (.error (.compile cell.displayName (toString f.parameters.length ++ " parameters for " ++
        toString cell.references.length ++ " references")), world)
    else
      match Extraction.Helper.recognize? f with
      | some helper => (.ok helper.native, world)
      | none => instantiate f cell world

end CellGraph
