/-!
# Command lines

What a command line asks for. The options for settings and for verbosity may stand before and after
the name of the subcommand, each once on either side; the one after it counts. After `--` everything
is a positional argument. Paths may not be empty.

A path that stands apart from its option is only noted at first. It is looked at when the next
option or positional argument of its side comes, or at the end. The arguments after the subcommand's
name come before that end, so a call for help among them is answered even if the last path before it
is wrong.
-/

namespace CellGraph.Command

/-- The subcommands. -/
inductive Name where
  | tree
  | resolve
  | graph
  | imports
deriving DecidableEq, Repr

/-- What is to be done. -/
inductive Task where
  | tree (file : String)
  | resolve (sources : List String)
  | graph (notebook : String) (library : Option String)
  | imports (notebook : String)
deriving DecidableEq, Repr

/-- What a command line asks for. -/
inductive Request where
  /-- A task, with a file of settings. -/
  | run (settings : Option String) (verbose : Bool) (task : Task)
  /-- The help text of a subcommand, or that of the whole. -/
  | help (of : Option Name)
  /-- The help text of the help itself. -/
  | helpOfHelp
  /-- Something that cannot be understood. -/
  | bad
deriving DecidableEq, Repr

/-- The subcommand with a name. -/
def Name.ofString? : String → Option Name
  | "tree" => some tree
  | "resolve" => some resolve
  | "graph" => some graph
  | "imports" => some imports
  | _ => none

/-- An option that takes a path. -/
inductive PathOption where
  | settings
  | library
deriving DecidableEq, Repr

/-- What has been given on one side of the subcommand's name. -/
structure Given where
  settings : Option String := none
  verbose : Bool := false
  library : Option String := none
  positional : List String := []
  /-- A path that has been noted and not yet looked at. -/
  pending : Option (PathOption × String) := none
deriving Repr

/-- What came of an argument: the options so far, a call for help, or a mistake. -/
inductive Progress where
  | next (given : Given)
  | help
  | bad

/-- Takes in the path of an option, which may be given only once. -/
def Given.setPath (g : Given) (option : PathOption) (path : String) : Progress :=
  if path = "" then .bad
  else match option with
    | .settings => if g.settings.isSome then .bad else .next { g with settings := some path }
    | .library => if g.library.isSome then .bad else .next { g with library := some path }

/-- Looks at the path that has been noted, if there is one, and goes on from there. -/
def Given.settled (g : Given) (next : Given → Progress) : Progress :=
  match g.pending with
  | none => next g
  | some (option, path) =>
    match { g with pending := none }.setPath option path with
    | .next g => next g
    | other => other

/-- Notes that the run is to be verbose, which may be said only once. -/
def Given.setVerbose (g : Given) : Progress :=
  if g.verbose then .bad else .next { g with verbose := true }

/-- Whether an argument can be the value of an option that stands before it. -/
def isPlain (argument : String) : Bool :=
  !argument.startsWith "-" || argument = "-"

/-- Takes in letters that stand after a single dash. -/
def shortOptions : List Char → Given → Progress
  | [], g => .next g
  | 'v' :: letters, g =>
    match g.setVerbose with
    | .next g => shortOptions letters g
    | other => other
  | 'h' :: _, _ => .help
  | _ :: _, _ => .bad

/-- The option with a name that takes a path, among those of a subcommand. -/
def pathOption? (name : Option Name) (option : String) : Option PathOption :=
  if option = "config" then some .settings
  else if option = "library" ∧ name = some .graph then some .library
  else none

/-- The parts of a long option before and after its equals sign. -/
def splitEquals (option : List Char) : String × Option String :=
  let front := option.takeWhile (· ≠ '=')
  let value := match option.dropWhile (· ≠ '=') with
    | _ :: value => some (String.ofList value)
    | [] => none
  (String.ofList front, value)

/-- Takes in an argument that starts with a dash and the ones after it that belong to it; what is left
of the arguments. -/
def takeOption (name : Option Name) (argument : List Char) (rest : List String) (g : Given) :
    Progress × List String :=
  match argument with
  | '-' :: '-' :: long =>
    let (option, value) := splitEquals long
    match pathOption? name option, value, rest with
    | some path, some value, rest => (g.settled fun g => g.setPath path value, rest)
    | some path, none, value :: rest =>
      if isPlain value then
        (g.settled fun g => .next { g with pending := some (path, value) }, rest)
      else (.bad, rest)
    | some _, none, [] => (.bad, [])
    | none, none, rest =>
      if option = "verbose" then (g.settled Given.setVerbose, rest)
      else if option = "help" then (g.settled fun _ => .help, rest)
      else (.bad, rest)
    | none, some _, rest => (.bad, rest)
  | '-' :: letters => (g.settled (shortOptions letters), rest)
  | _ => (.bad, rest)

/-- How many positional arguments a subcommand takes at most; none for any number. -/
def Name.arity : Name → Option Nat
  | resolve => none
  | _ => some 1

/-- Takes in a positional argument. -/
def Given.addPositional (g : Given) (name : Name) (argument : String) : Progress :=
  g.settled fun g =>
    let full : Bool := match name.arity with
      | some n => decide (n ≤ g.positional.length)
      | none => false
    if full ∨ (argument = "" ∧ name ≠ .resolve) then .bad
    else .next { g with positional := g.positional ++ [argument] }

/-- Takes in positional arguments to the end. -/
def addPositionals (name : Name) : List String → Given → Progress
  | [], g => g.settled .next
  | argument :: rest, g =>
    match g.addPositional name argument with
    | .next g => addPositionals name rest g
    | other => other

/-- Takes in the arguments after the subcommand's name. -/
def takeAll (name : Name) : (fuel : Nat) → List String → Given → Progress
  | 0, _, _ => .bad
  | _ + 1, [], g => g.settled .next
  | fuel + 1, argument :: rest, g =>
    if argument = "--" then addPositionals name rest g
    else if isPlain argument then
      match g.addPositional name argument with
      | .next g => takeAll name fuel rest g
      | other => other
    else
      match takeOption (some name) argument.toList rest g with
      | (.next g, rest) => takeAll name fuel rest g
      | (other, _) => other

/-- The task of a subcommand, if it has the arguments that it needs. -/
def task? (name : Name) (g : Given) : Option Task :=
  match name, g.positional with
  | .tree, [file] => some (.tree file)
  | .resolve, sources => some (.resolve sources)
  | .graph, [notebook] => some (.graph notebook g.library)
  | .imports, [notebook] => some (.imports notebook)
  | _, _ => none

/-- What is asked for after the subcommand's name. The path noted last before the name is looked at
only when the arguments after it ask for a task. -/
def finish (name : Name) (outer : Given) (arguments : List String) : Request :=
  match takeAll name (arguments.length + 1) arguments {} with
  | .bad => .bad
  | .help => .help (some name)
  | .next inner =>
    match task? name inner, outer.settled .next with
    | some task, .next outer =>
      .run (inner.settings.or outer.settings) (inner.verbose || outer.verbose) task
    | _, _ => .bad

/-- What is asked for after the word `help`. -/
def helpFor : List String → Request
  | [] => .help none
  | [name] =>
    match Name.ofString? name with
    | some name => .help (some name)
    | none => if name = "help" then .helpOfHelp else .bad
  | _ => .bad

/-- Takes in the arguments up to the subcommand's name. -/
def begin : (fuel : Nat) → List String → Given → Request
  | 0, _, _ => .bad
  | _ + 1, [], _ => .bad
  | fuel + 1, argument :: rest, g =>
    if argument = "--" then .bad
    else if isPlain argument then
      match Name.ofString? argument with
      | some name => finish name g rest
      | none => if argument = "help" then helpFor rest else .bad
    else
      match takeOption none argument.toList rest g with
      | (.next g, rest) => begin fuel rest g
      | (.help, _) => .help none
      | (.bad, _) => .bad

/-- What a command line asks for. -/
def parse (arguments : List String) : Request :=
  begin (arguments.length + 1) arguments {}

end CellGraph.Command
