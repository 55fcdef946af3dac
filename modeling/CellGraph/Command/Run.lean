import CellGraph.Command.Usage
import CellGraph.Extraction.Descriptors
import CellGraph.Library
import CellGraph.Settings
import CellGraph.Text.Unicode

/-!
# Running commands

What a command line does, as a function from the files that it can see to what it prints: a code, the
text on standard output, and the message of an error.
-/

namespace CellGraph.Command

open Json (Reader)

/-- What a run leaves behind. -/
structure Output where
  code : Nat
  stdout : String := ""
  message : Option String := none
deriving DecidableEq, Repr

/-- A run that went well. -/
def Output.printed (stdout : String) : Output :=
  { code := 0, stdout }

/-- A run that ended with an error. -/
def Output.failed (message : String) : Output :=
  { code := 1, message := some message }

/-- A run that broke off. -/
def Output.broken : Output :=
  { code := 101 }

/-- Lines of text. -/
def lines (texts : List String) : String :=
  String.join (texts.map (· ++ "\n"))

/-! ## Tree -/

/-- What comes of an error in a parsed cell. Its place in the text is shown with it, which needs a
range that runs forwards. -/
def reportCell (e : Error) : Output :=
  match e with
  | .tree _ (some span) =>
    if span.stop < span.start then .broken else .failed ("Error: " ++ e.message)
  | _ => .failed ("Error: " ++ e.message)

/-- Turns the parsed cells of a file into a stored notebook. -/
def tree (files : Files) (path : String) : Output :=
  match files.read path with
  | .error _ => .failed ("Failed to read " ++ path)
  | .ok text =>
    match Reader.parse? (.list ParsedCell.reader) text with
    | none => .failed (path ++ " is not a list of parsed cells")
    | some cells =>
      match Extraction.batch cells with
      | .error e => reportCell e
      | .ok cells => .printed (lines [Notebook.render { cells }])

/-! ## Notebooks -/

/-- The notebook in a file, or how the run ends without it. -/
def readNotebook (files : Files) (path : String) : Except Output Notebook :=
  match files.read path with
  | .error _ => .error (.failed ("Failed to read " ++ path))
  | .ok text =>
    match Notebook.parse? text with
    | none => .error (.failed (path ++ " is not a notebook"))
    | some n => .ok n

/-- The import statements of a notebook. -/
def imports (files : Files) (path : String) : Output :=
  match readNotebook files path with
  | .error output => output
  | .ok n =>
    .printed (lines (n.cells.filterMap fun cell => match cell with
      | .imports cell => some cell.statement
      | .value _ => none))

/-- A row of a module's table as JSON; a variable that is no import has no field for it. -/
def rowDocument (row : Graph.Row) : Json :=
  .object ([("name", row.name.elim .null .string), ("inputs", .array (row.inputs.map .string))] ++
    row.imported.elim [] fun name => [("import", .string name)])

variable [Text.IdentifierTable]

/-- The table of the module that a notebook compiles to. -/
def graph (settings : Settings) (files : Files) (path : String) (directory : Option String) :
    Output :=
  match readNotebook files path with
  | .error output => output
  | .ok n =>
    let library : Library :=
      { files, directory := directory.getD (Files.parent path), host := settings.host }
    match library.compile n { graph := .empty () settings.maxPasses } with
    | (.error e, _) => .failed e.message
    | (.ok m, s) =>
      .printed (lines [(Json.array ((s.graph.rows m).map rowDocument)).pretty])

/-! ## Runs -/

/-- Does a task. -/
def perform (settings : Settings) (files : Files) : Task → Output
  | .tree file => tree files file
  | .resolve sources => .printed (lines (sources.map settings.host.expand))
  | .graph notebook library => graph settings files notebook library
  | .imports notebook => imports files notebook

/-- The settings in a file, if one is given and holds settings. -/
def loadSettings? (files : Files) : Option String → Option Settings
  | none => some {}
  | some path =>
    match files.read path with
    | .ok text => Settings.parse? text
    | .error _ => none

/-- Does what is asked for, under the name of the program. -/
def respond (program : String) (files : Files) : Request → Output
  | .bad => { code := 2 }
  | .help none => .printed (programHelp program)
  | .help (some name) => .printed (subcommandHelp program name)
  | .helpOfHelp => .printed (helpHelp program)
  | .run settings _ task =>
    match loadSettings? files settings with
    | some settings => perform settings files task
    | none => .failed ("Failed to load config " ++ settings.getD "")

/-- Runs a command line under the name of the program. -/
def run (program : String) (arguments : List String) (files : Files) : Output :=
  respond program files (parse arguments)

end CellGraph.Command
