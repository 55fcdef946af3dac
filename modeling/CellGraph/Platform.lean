import CellGraph.Error
import CellGraph.Graph.Derivation
import CellGraph.Notebook.Basic
import CellGraph.Notebook.Statement

/-!
# Platforms

What an assembly of cells builds on: modules and variables that can be defined, imported, derived and
deleted. A platform is given by its operations on a state `S`, with modules `M`, variables `V`,
definitions `D` and observers `O` of its own. The graph is one platform; others can stand in for it.
-/

namespace CellGraph

/-- The operations of a platform. -/
structure Platform (S M V D O : Type) where
  newModule : S → M × S
  newVariable : M → Option O → S → V × S
  define : V → Option String → List String → D → S → Except Fault Unit × S
  importing : V → (name newName : String) → M → S → Except Fault Unit × S
  derive : M → List Binding → M → S → M × S
  delete : V → S → S
  /-- The definition that always has the given text as its value. -/
  constant : String → D

/-- A platform together with what a particular assembly needs beside it. -/
structure Kit (S M V D O : Type) extends Platform S M V D O where
  /-- Makes the definition of a cell. -/
  compile : ValueCell → M → S → Except Error D × S
  /-- The observer of a variable, by its name. -/
  observer : Option String → Option O := fun _ => none
  /-- How an import is shown. -/
  format : ImportCell → String := ImportCell.statement

/-- What a resolver is asked: the source of an import, the module it is for, and the observers in
use. -/
structure Request (M O : Type) where
  source : String
  home : M
  observer : Option String → Option O

/-- A way from the source of an import to a module. -/
abbrev Resolver (S M O : Type) := Request M O → S → Except Error M × S

/-- The resolver for notebooks without imports. -/
def Resolver.none {S M O : Type} : Resolver S M O := fun request s =>
  (.error (.resolve request.source "imports are not supported here"), s)

/-! ## Graphs -/

namespace Graph

variable {σ : Type}

/-- Runs an operation that may fail and then changes nothing. -/
def attempt (f : Graph σ → Except Fault (Graph σ)) (g : Graph σ) : Except Fault Unit × Graph σ :=
  match f g with
  | .ok g => (.ok (), g)
  | .error fault => (.error fault, g)

/-- A graph that is a part of a larger state, as a platform. -/
def platformIn {S : Type} (get : S → Graph σ) (put : Graph σ → S → S) :
    Platform S ModuleId Slot (Body σ) String where
  newModule s :=
    let (m, g) := (get s).newModule
    (m, put g s)
  newVariable m observer s :=
    let (slot, g) := (get s).newVariable m observer
    (slot, put g s)
  define slot name inputs body s :=
    let (result, g) := attempt (fun g => g.define slot name inputs body) (get s)
    (result, put g s)
  importing slot name newName source s :=
    let (result, g) := attempt (fun g => g.importing slot name newName source) (get s)
    (result, put g s)
  derive m injections source s :=
    let (derived, g) := (get s).derive m injections source
    (derived, put g s)
  delete slot s := put ((get s).delete slot) s
  constant text := Body.constant (.data (.string text))

/-- A graph as a platform. -/
def platform : Platform (Graph σ) ModuleId Slot (Body σ) String :=
  platformIn id fun g _ => g

end Graph

end CellGraph
