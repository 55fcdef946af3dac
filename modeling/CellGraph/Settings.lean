import CellGraph.Notebook.Address
import CellGraph.Toml.Reader

/-!
# Settings

Where hosted notebooks are found and how often a graph is evaluated before it counts as unsettled.
Settings come as a TOML document with the sections `resolver` and `runtime`; whatever is missing has a
default, and unknown keys are passed over. A section may also be an array of its values in order.
-/

namespace CellGraph

/-- The settings of a run. -/
structure Settings where
  host : Host := {}
  /-- How many passes a graph gets to settle. -/
  maxPasses : Nat := 64
deriving DecidableEq, Repr

namespace Settings

open Toml (Item)

/-- The values of a section by their names. A date counts as a section without known keys. -/
def section? (names : List String) : Option Item → Option (List (Option Item))
  | none | some .date => some (names.map fun _ => none)
  | some (.table _ fields) => some (names.map fun name => fields.lookup name)
  | some (.array items) => some ((names.zipIdx).map fun (_, i) => items[i]?)
  | some _ => none

/-- A string, with a default. -/
def string? (default : String) : Option Item → Option String
  | none => some default
  | some (.string s) => some s
  | some _ => none

/-- A natural number, with a default. -/
def natural? (default : Nat) : Option Item → Option Nat
  | none => some default
  | some (.integer (.ofNat n)) => some n
  | some _ => none

/-- The settings in the fields of a document. -/
def ofFields? (fields : Toml.Fields) : Option Settings := do
  let defaults : Settings := {}
  match ← section? ["api_origin", "version"] (fields.lookup "resolver"),
      ← section? ["max_passes"] (fields.lookup "runtime") with
  | [origin, version], [maxPasses] =>
    return {
      host := {
        origin := ← string? defaults.host.origin origin
        version := ← string? defaults.host.version version
      }
      maxPasses := ← natural? defaults.maxPasses maxPasses
    }
  | _, _ => none

/-- Reads settings from the text of a document. -/
def parse? (text : String) : Option Settings :=
  (Toml.parse? text).bind ofFields?

end Settings

end CellGraph
