import CellGraph.Assembly
import CellGraph.Files
import CellGraph.Graph.Evaluation
import CellGraph.Native
import CellGraph.Notebook.Document
import CellGraph.Settings

/-!
# Libraries

A library serves imported notebooks from the files of a directory: the notebook with an id is the
file of that name. Every address is loaded at most once in a run; an address that is asked for while
its own imports are being wired is an import cycle.

Loading goes as deep as there are addresses, and each comes from an import of one of the notebooks:
their number bounds the depth.
-/

namespace CellGraph

/-- The files of a library, the directory of its notebooks, and where they are hosted. -/
structure Library where
  files : Files
  directory : String
  host : Host

namespace Library

/-- The state of a run: the graph, the addresses that are being loaded, and the modules of those that
are loaded. -/
structure State where
  graph : Graph Unit
  loading : List String := []
  loaded : List (String × ModuleId) := []

variable [Text.IdentifierTable]

/-- The graph of a run as a platform for its notebooks, which have no host to run them. -/
def kit : Kit State ModuleId Slot (Body Unit) String :=
  { Graph.platformIn State.graph (fun graph s => { s with graph }) with
    compile := fun cell _ s =>
      let (result, world) := compileCell .unavailable cell s.graph.world
      (result, { s with graph.world := world }) }

/-- The file of the notebook at an address. -/
def path (l : Library) (url : String) : Except Error String :=
  match l.host.idOfUrl? url with
  | some id => .ok (Files.join l.directory (id ++ ".json"))
  | none => .error (.resolve url "not a hosted notebook module")

/-- The notebook at an address. -/
def notebook (l : Library) (url : String) : Except Error Notebook := do
  let path ← l.path url
  match l.files.read path with
  | .error fault => throw (.resolve url fault.message)
  | .ok text =>
    match Notebook.parse? text with
    | some n => return n
    | none => throw .document

/-- A way to load the module at an address. -/
abbrev Load := String → State → Except Error ModuleId × State

/-- Resolves an import by loading the address of its source. -/
def resolver (l : Library) (load : Load) : Resolver State ModuleId String := fun request s =>
  load (l.host.expand request.source) s

/-- Compiles a notebook into a new module. -/
def compileWith (l : Library) (load : Load) (n : Notebook) (s : State) :
    Except Error ModuleId × State :=
  match (Assembly.start kit none s).visit kit n with
  | (.error e, a) => (.error e, a.store)
  | (.ok (), a) =>
    match a.finalize kit (l.resolver load) with
    | (.error e, a) => (.error e, a.store)
    | (.ok (), a) => (.ok a.home, a.store)

/-- Reads and compiles the notebook at an address. -/
def readWith (l : Library) (load : Load) (url : String) (s : State) :
    Except Error ModuleId × State :=
  match l.notebook url with
  | .error e => (.error e, s)
  | .ok n => l.compileWith load n s

/-- Loads the module at an address, at most `depth` addresses deep. -/
def loadWithin (l : Library) : (depth : Nat) → Load
  | depth, url, s =>
    match s.loaded.lookup url with
    | some m => (.ok m, s)
    | none =>
      if url ∈ s.loading then (.error (.resolve url "import cycle"), s)
      else match depth with
        | 0 => (.error (.resolve url "import cycle"), s)
        | depth + 1 =>
          let (result, s) :=
            l.readWith (loadWithin l depth) url { s with loading := url :: s.loading }
          let s := { s with loading := s.loading.erase url }
          match result with
          | .error e => (.error e, s)
          | .ok m => (.ok m, { s with loaded := (url, m) :: s.loaded })

/-- The number of imports of a notebook. -/
def importCount (n : Notebook) : Nat :=
  n.cells.countP fun cell => match cell with
    | .imports _ => true
    | .value _ => false

/-- How deep loading can go: as deep as there are imports in a notebook and in all files. -/
def depth (l : Library) (n : Notebook) : Nat :=
  l.files.entries.foldl (fun total (_, text) =>
    total + ((Notebook.parse? text).map importCount).getD 0) (importCount n)

/-- Compiles a notebook with its imports into a new module. -/
def compile (l : Library) (n : Notebook) (s : State) : Except Error ModuleId × State :=
  l.compileWith (l.loadWithin (l.depth n)) n s

end Library

end CellGraph
