import CellGraph.Command.Arguments

/-!
# Help texts

The texts that tell how a program with these subcommands is used.
-/

namespace CellGraph.Command

/-- What a subcommand does. -/
def Name.about : Name → String
  | tree => "Turn parsed cells into a notebook descriptor tree"
  | resolve => "Print the module URL each import source expands to"
  | graph => "Compile a notebook into the in-memory runtime and print its nodes"
  | imports => "Print the import statements of a notebook"

/-- The name of a subcommand. -/
def Name.text : Name → String
  | tree => "tree"
  | resolve => "resolve"
  | graph => "graph"
  | imports => "imports"

/-- How the positional arguments of a subcommand are written. -/
def Name.positional : Name → String
  | tree => "<FILE>"
  | resolve => "[SOURCES]..."
  | graph => "<NOTEBOOK>"
  | imports => "<NOTEBOOK>"

/-- What the positional arguments of a subcommand are. -/
def Name.positionalAbout : Name → String
  | tree => "JSON array of parsed cells (`\x7b input, cell \x7d`)"
  | resolve => ""
  | graph => "Notebook descriptor JSON"
  | imports => ""

/-- Lines of a list in two columns. -/
def columns (rows : List (String × String)) : String :=
  let width := rows.foldl (fun width (left, _) => max width left.length) 0
  String.join (rows.map fun (left, right) =>
    "  " ++ left ++ String.ofList (List.replicate (width - left.length) ' ') ++ "  " ++ right ++ "\n")

/-- The options of a subcommand, or of the program itself. -/
def optionRows (name : Option Name) : List (String × String) :=
  [("    --config <CONFIG>", "TOML settings file")] ++
    (if name = some .graph then
      [("    --library <LIBRARY>", "Directory holding imported notebooks as `<id>.json`")] else []) ++
    [("-v, --verbose", "Log at debug level"), ("-h, --help", "Print help")]

/-- The help text of the program with the given name. -/
def programHelp (program : String) : String :=
  "Compile notebook cells into dataflow graphs\n\nUsage: " ++ program ++
    " [OPTIONS] <COMMAND>\n\nCommands:\n" ++
    columns ([Name.tree, .resolve, .graph, .imports].map (fun name => (name.text, name.about)) ++
      [("help", "Print this message or the help of the given subcommand(s)")]) ++
    "\nOptions:\n" ++ columns (optionRows none)

/-- The help text of a subcommand. -/
def subcommandHelp (program : String) (name : Name) : String :=
  name.about ++ "\n\nUsage: " ++ program ++ " " ++ name.text ++ " [OPTIONS] " ++ name.positional ++
    "\n\nArguments:\n" ++ columns [(name.positional, name.positionalAbout)] ++
    "\nOptions:\n" ++ columns (optionRows (some name))

/-- The help text of the help. -/
def helpHelp (program : String) : String :=
  "Print this message or the help of the given subcommand(s)\n\nUsage: " ++ program ++
    " help [COMMAND]...\n\nArguments:\n" ++
    columns [("[COMMAND]...", "Print help for the subcommand(s)")]

end CellGraph.Command
