import CellGraph.Command.Run

/-!
# The program

Reads the files that a command line can ask for, runs it, and prints what it leaves behind.
-/

namespace CellGraph.Program

/-- The text of a file under its path, unless it cannot be read. -/
def readOne (path : String) : IO (List (String × String)) := do
  try
    return [(path, ← IO.FS.readFile path)]
  catch _ => return []

/-- The texts of the files at an entry of a directory and below it, under paths from `path` on. -/
partial def readEntry (path : String) (entry : IO.FS.DirEntry) : IO (List (String × String)) := do
  let path := Files.join path entry.fileName
  if ← entry.path.isDir then
    let below ← (← entry.path.readDir).toList.mapM (readEntry path)
    return below.flatten
  else readOne path

/-- The texts of the files in a directory and below it. -/
def readDirectory (path : String) : IO (List (String × String)) := do
  try
    let directory ← IO.FS.realPath (if path = "" then "." else path)
    return (← (← directory.readDir).toList.mapM (readEntry path)).flatten
  catch _ => return []

/-- The files that a task can ask for. -/
def taskFiles : Command.Task → IO (List (String × String))
  | .tree file => readOne file
  | .resolve _ => return []
  | .imports notebook => readOne notebook
  | .graph notebook library => do
    return (← readOne notebook) ++ (← readDirectory (library.getD (Files.parent notebook)))

/-- The files that a command line can ask for. -/
def requestFiles : Command.Request → IO (List (String × String))
  | .run settings _ task => do
    return (← settings.elim (pure []) readOne) ++ (← taskFiles task)
  | _ => return []

end CellGraph.Program

open CellGraph in
/-- Runs the command line. -/
def main (arguments : List String) : IO UInt32 := do
  let files ← Program.requestFiles (Command.parse arguments)
  let output := Command.run "cellgraph" arguments (Files.ofList files)
  IO.print output.stdout
  if let some message := output.message then
    IO.eprintln ("Error: " ++ message)
  return UInt32.ofNat output.code
