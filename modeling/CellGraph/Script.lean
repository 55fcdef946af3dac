import CellGraph.Native
import CellGraph.Text.Parts

/-!
# Scripts

A small language of bodies, for hosts without a language of their own and for trying graphs out. A
`Code` is what a body does; making a body of it (`Code.instantiate`) sets up the memory that the body
keeps to itself. Scripts choose the code of a cell by a text that its function has in its body.
-/

namespace CellGraph.Script

/-- What bodies remember beside the mutables: how often each has run, and which variables have been
given a name from outside. -/
structure Memory where
  tallies : Array Nat := #[]
  handles : List (String × Slot) := []

/-- A value to be made. -/
inductive Literal where
  | undefined
  | data (json : Json)
  /-- A new mutable around a value. -/
  | mutable (initial : Literal)
  | intrinsic (which : Intrinsic)
deriving Repr, Inhabited

/-- Makes a value. -/
def Literal.make : Literal → Heap → Value × Heap
  | undefined, heap => (.undefined, heap)
  | data json, heap => (.data json, heap)
  | intrinsic which, heap => (.intrinsic which, heap)
  | mutable initial, heap =>
    let (value, heap) := initial.make heap
    let (r, heap) := heap.alloc value
    (.mutable r, heap)

/-- What a body does. -/
inductive Code where
  /-- Has always the same data. -/
  | constant (json : Json)
  /-- Has always the same value, made once. -/
  | made (literal : Literal)
  /-- Makes its value anew at every run. -/
  | fresh (literal : Literal)
  /-- Has the value of an input. -/
  | input (index : Option Nat)
  /-- Lists its inputs as data. -/
  | list
  /-- Adds its inputs, and a number, in 64 bits. -/
  | sum (start : Int)
  /-- Fails. -/
  | fail (reason : String)
  /-- Counts its runs. -/
  | count
  /-- Sets the mutable that is its first input to data. -/
  | assign (json : Json)
  /-- Sets the mutable that is its first input to another input. -/
  | copy (index : Option Nat)
  /-- Adds one to the mutable that is its first input, while that is below a limit. -/
  | bump (limit : Int)
  /-- Deletes a variable. -/
  | delete (handle : String)
deriving Repr

/-- The signed integer of 64 bits that agrees with an integer modulo `2 ^ 64`. -/
def wrap (i : Int) : Int :=
  i.bmod (Nat.pow 2 64)

/-- An integer of 64 bits as data. -/
def integer (i : Int) : Value :=
  .data (((Json.Number.ofInt? i).map Json.number).getD .null)

/-- Data as a signed integer of 64 bits, if it is one. -/
def integerOf? : Json → Option Int
  | .number n => n.toInt?.filter (· < Nat.pow 2 63)
  | _ => none

/-- A value as a signed integer of 64 bits; anything else counts as zero. -/
def integerOf (heap : Heap) (v : Value) : Int :=
  (integerOf? (heap.toJson v)).getD 0

/-- The input at an index, undefined if there is none. -/
def inputAt (inputs : List Value) (index : Option Nat) : Value :=
  (index.bind (inputs[·]?)).getD .undefined

/-- Sets the mutable that is the first input and says whether that changed it; undefined without a
mutable. -/
def assignFirst (inputs : List Value) (value : Value) (world : World Memory) : Outcome Memory :=
  match inputs with
  | .mutable r :: _ =>
    let (changed, heap) := world.heap.assign r value
    { result := .ok (.data (.bool changed)), world := { world with heap } }
  | _ => { result := .ok .undefined, world }

namespace Code

/-- The body that keeps its count under an index of the tallies. -/
def counting (index : Nat) : Body Memory := fun _ world =>
  let n := (world.host.tallies[index]?.getD 0) + 1
  { result := .ok (.data (.ofNat n))
    world := { world with host.tallies := world.host.tallies.setIfInBounds index n } }

/-- The body that adds one below a limit. -/
def bumping (limit : Int) : Body Memory := fun inputs world =>
  match inputs with
  | .mutable r :: _ =>
    let n := integerOf world.heap (world.heap.content r)
    if n < limit then
      let (_, heap) := world.heap.assign r (integer (wrap (n + 1)))
      { result := .ok .undefined, world := { world with heap } }
    else { result := .ok .undefined, world }
  | _ => { result := .ok .undefined, world }

/-- The body of a code, with the memory that it keeps to itself. -/
def instantiate (code : Code) (world : World Memory) : Body Memory × World Memory :=
  match code with
  | constant json => (Body.constant (.data json), world)
  | made literal =>
    let (value, heap) := literal.make world.heap
    (Body.constant value, { world with heap })
  | fresh literal =>
    (fun _ world =>
      let (value, heap) := literal.make world.heap
      { result := .ok value, world := { world with heap } }, world)
  | input index => (fun inputs world => { result := .ok (inputAt inputs index), world }, world)
  | list =>
    (fun inputs world =>
      { result := .ok (.data (.array (inputs.map world.heap.toJson))), world }, world)
  | sum start =>
    (fun inputs world =>
      let total := inputs.foldl (fun n v => wrap (n + integerOf world.heap v)) start
      { result := .ok (integer total), world }, world)
  | fail reason => (fun _ world => { result := .error (.evaluation reason), world }, world)
  | count =>
    (counting world.host.tallies.size,
      { world with host.tallies := world.host.tallies.push 0 })
  | assign json => (fun inputs world => assignFirst inputs (.data json) world, world)
  | copy index => (fun inputs world => assignFirst inputs (inputAt inputs index) world, world)
  | bump limit => (bumping limit, world)
  | delete handle =>
    (fun _ world =>
      { result := .ok (.data (.string "deleted"))
        world
        deleted := (world.host.handles.lookup handle).toList }, world)

end Code

/-- A script: the code for functions that have a text in their body. -/
structure Rule where
  text : String
  code : Code
deriving Repr

/-- The host that runs the first script that fits a function. -/
def instantiate (scripts : List Rule) : Instantiate Memory := fun f cell world =>
  match scripts.find? fun script => Text.occurs script.text.toList f.body.toList with
  | some script =>
    let (body, world) := script.code.instantiate world
    (.ok body, world)
  | none => (.error (.compile cell.displayName ("no script for `" ++ f.body ++ "`")), world)

end CellGraph.Script
