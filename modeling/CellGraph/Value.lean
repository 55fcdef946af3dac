import CellGraph.Json.Basic

/-!
# Values

A variable's value is nothing, JSON data, a mutable, or one of the two capabilities that every module
has by name. A mutable is known by its identity, a place in the `Heap`; its content may change, and
its version counts the changes.
-/

namespace CellGraph

/-- The capabilities that every module has by name. -/
inductive Intrinsic where
  | generators
  | mutable
deriving DecidableEq, Repr

/-- The name of a capability. -/
def Intrinsic.name : Intrinsic → String
  | generators => "Generators"
  | mutable => "Mutable"

/-- The capability with a name. -/
def Intrinsic.ofName? : String → Option Intrinsic
  | "Generators" => some generators
  | "Mutable" => some mutable
  | _ => none

/-- The identity of a mutable. -/
structure Ref where
  index : Nat
deriving DecidableEq, Repr

/-- A value of a variable. -/
inductive Value where
  | undefined
  | data (json : Json)
  | mutable (ref : Ref)
  | intrinsic (which : Intrinsic)
deriving Repr, Inhabited

/-- Equality of values: data as JSON values, mutables by identity. -/
def Value.same : Value → Value → Bool
  | undefined, undefined => true
  | data a, data b => a.same b
  | mutable a, mutable b => a == b
  | intrinsic a, intrinsic b => a == b
  | _, _ => false

/-- A mutable: its content, and how often that has changed. -/
structure Mutable where
  content : Value
  version : Nat
deriving Repr

/-- The mutables by identity. -/
structure Heap where
  cells : Array Mutable := #[]
deriving Repr

namespace Heap

/-- A new mutable with an initial content. -/
def alloc (h : Heap) (initial : Value) : Ref × Heap :=
  ({ index := h.cells.size }, { cells := h.cells.push { content := initial, version := 0 } })

/-- The content of a mutable. -/
def content (h : Heap) (r : Ref) : Value :=
  (h.cells[r.index]?.map Mutable.content).getD .undefined

/-- The number of changes of a mutable. -/
def version (h : Heap) (r : Ref) : Nat :=
  (h.cells[r.index]?.map Mutable.version).getD 0

/-- Sets the content of a mutable, and says whether that changed it. -/
def assign (h : Heap) (r : Ref) (value : Value) : Bool × Heap :=
  match h.cells[r.index]? with
  | none => (false, h)
  | some cell =>
    if cell.content.same value then (false, h)
    else
      let changed : Mutable := { content := value, version := cell.version + 1 }
      (true, { cells := h.cells.setIfInBounds r.index changed })

/-- The version of a mutable, zero for any other value. -/
def versionOf (h : Heap) : Value → Nat
  | .mutable r => h.version r
  | _ => 0

/-- A value as JSON, following at most `fuel` mutables into each other. -/
def jsonWithin (h : Heap) : (fuel : Nat) → Value → Json
  | _, .undefined => .null
  | _, .data json => json
  | _, .intrinsic which => .string ("[" ++ which.name ++ "]")
  | 0, .mutable _ => .null
  | fuel + 1, .mutable r => h.jsonWithin fuel (h.content r)

/-- A value as JSON; a mutable shows its content. Mutables that do not contain themselves are never
nested deeper than there are mutables. -/
def toJson (h : Heap) (v : Value) : Json :=
  h.jsonWithin h.cells.size v

end Heap

/-- A value with the contents of its mutables at one moment. -/
inductive Snapshot where
  | undefined
  | data (json : Json)
  | mutable (content : Snapshot) (version : Nat)
  | intrinsic (which : Intrinsic)
deriving Repr

namespace Heap

/-- The snapshot of a value, following at most `fuel` mutables into each other. -/
def snapshotWithin (h : Heap) : (fuel : Nat) → Value → Snapshot
  | _, .undefined => .undefined
  | _, .data json => .data json
  | _, .intrinsic which => .intrinsic which
  | 0, .mutable r => .mutable .undefined (h.version r)
  | fuel + 1, .mutable r => .mutable (h.snapshotWithin fuel (h.content r)) (h.version r)

/-- The snapshot of a value. -/
def snapshot (h : Heap) (v : Value) : Snapshot :=
  h.snapshotWithin h.cells.size v

end Heap

end CellGraph
