import CellGraph.Text.Parts

/-!
# Files

The texts that a run can see, by path. Putting a file at a path makes the directories that the path
goes through, and takes the place of a file that is there already under whatever path. A path is taken
step by step, so that a step out of a directory needs that directory to be there.
-/

namespace CellGraph

/-- The files that a run can see. -/
structure Files where
  /-- Places and texts, each place once. -/
  entries : List (List String × String) := []
  /-- The places of the directories. -/
  directories : List (List String) := []

namespace Files

/-- Why a file cannot be read. -/
inductive Fault where
  | missing
  | notDirectory
  | isDirectory
  | nameTooLong
  | nulInName
deriving DecidableEq, Repr

/-- The text of a fault. -/
def Fault.message : Fault → String
  | missing => "No such file or directory (os error 2)"
  | notDirectory => "Not a directory (os error 20)"
  | isDirectory => "Is a directory (os error 21)"
  | nameTooLong => "File name too long (os error 36)"
  | nulInName => "file name contained an unexpected NUL byte"

/-- The step that stands for the root of all paths. -/
def rootStep : String := "/"

/-- The steps of a path; a path from the root starts with the root's step. -/
def steps (path : String) : List String :=
  let parts := (Text.splitOn '/' path.toList).map String.ofList
  match parts with
  | "" :: rest => if rest = [] then [] else rootStep :: rest
  | parts => parts

/-- The directory around a place. -/
def above (place : List String) : List String :=
  match place.getLast? with
  | none => [".."]
  | some last =>
    if last = ".." then place ++ [".."]
    else if place = [rootStep] then place
    else place.dropLast

/-- The place that one step leads to. -/
def move (place : List String) (step : String) : List String :=
  if step = "" ∨ step = "." then place
  else if step = ".." then above place
  else place ++ [step]

/-- The place of a path. -/
def placeOf (path : String) : List String :=
  (steps path).foldl move []

/-- The places that steps lead through, from the one that they start at up to the last step. -/
def through (place : List String) : (steps : List String) → List (List String)
  | [] => []
  | step :: steps => place :: through (move place step) steps

/-- Puts a file at a path. -/
def put (files : Files) (path text : String) : Files :=
  let place := placeOf path
  { entries := (place, text) :: files.entries.filter fun (p, _) => p ≠ place
    directories := through [] (steps path) ++ files.directories }

/-- The files that are there after putting texts at paths, one after the other. -/
def ofList (files : List (String × String)) : Files :=
  files.foldl (fun files (path, text) => files.put path text) {}

/-- Whether there is a directory at a place. -/
def isDirectory (files : Files) (place : List String) : Bool :=
  files.directories.contains place

/-- The most bytes that one step of a path may have. -/
def maxStepBytes : Nat := 255

/-- The most bytes that a whole path may have. -/
def maxPathBytes : Nat := 4095

/-- Follows steps from a directory to the text of a file. -/
def follow (files : Files) : (directory steps : List String) → Except Fault String
  | _, [] => .error .isDirectory
  | directory, step :: steps =>
    let place := move directory step
    if step = "" ∨ step = "." ∨ step = ".." then follow files place steps
    else if maxStepBytes < step.utf8ByteSize then .error .nameTooLong
    else match files.entries.lookup place with
      | some text => if steps = [] then .ok text else .error .notDirectory
      | none => if files.isDirectory place then follow files place steps else .error .missing

/-- The text of the file at a path. -/
def read (files : Files) (path : String) : Except Fault String :=
  if path.toList.contains '\x00' then .error .nulInName
  else if maxPathBytes < path.utf8ByteSize then .error .nameTooLong
  else if path = "" then .error .missing
  else files.follow [] (steps path)

/-- A path below a directory; the empty directory is where paths start. -/
def join (directory path : String) : String :=
  if directory = "" then path
  else if directory.toList.getLast? = some '/' then directory ++ path
  else directory ++ "/" ++ path

/-- The directory that a path is in. -/
def parent (path : String) : String :=
  match path.toList.reverse.dropWhile (· ≠ '/') with
  | ['/'] => "/"
  | rest => String.ofList (rest.drop 1).reverse

end Files

end CellGraph
