import CellGraph.Assembly
import CellGraph.Text.Parts

/-!
# Ledgers

A platform that does no work: it numbers modules and variables, writes down what it is asked to do,
and keeps the numbers of the variables that are alive. Some names and sources fail, so that the way
an assembly takes back what it began can be seen.
-/

namespace CellGraph

/-- An entry of a ledger. -/
inductive Ledger.Entry where
  | newModule (m : Nat)
  | newVariable (m v : Nat) (observer : Option String)
  | define (v : Nat) (name : Option String) (inputs : List String) (definition : String)
  | importing (v : Nat) (name newName : String) (source : Nat)
  | derive (m : Nat) (injections : List Binding) (source derived : Nat)
  | delete (v : Nat)
  | compile (name : Option String)
  | resolve (source : String) (home : Nat) (observer : Option String)
deriving DecidableEq, Repr

/-- What was asked for, and the numbers given out. -/
structure Ledger where
  /-- How many modules there are. -/
  modules : Nat := 0
  /-- How many variables there have been. -/
  vars : Nat := 0
  /-- The variables that are alive, in ascending order. -/
  live : List Nat := []
  log : List Ledger.Entry := []
deriving Repr

namespace Ledger

/-- Writes an entry. -/
def write (l : Ledger) (entry : Entry) : Ledger :=
  { l with log := l.log ++ [entry] }

/-- A module that is not written down. -/
def giveModule (l : Ledger) : Nat × Ledger :=
  (l.modules, { l with modules := l.modules + 1 })

/-- A new module. -/
def newModule (l : Ledger) : Nat × Ledger :=
  let (m, l) := l.giveModule
  (m, l.write (.newModule m))

/-- A definition fails if the variable's name, or the definition of one without a name, has `broken`
in it. -/
def define (v : Nat) (name : Option String) (inputs : List String) (definition : String)
    (l : Ledger) : Except Fault Unit × Ledger :=
  let l := l.write (.define v name inputs definition)
  let text := name.getD definition
  if Text.occurs "broken".toList text.toList then (.error (.notDefined text), l) else (.ok (), l)

/-- The import of the name `broken` fails. -/
def importing (v : Nat) (name newName : String) (source : Nat) (l : Ledger) :
    Except Fault Unit × Ledger :=
  let l := l.write (.importing v name newName source)
  if name = "broken" then (.error (.notDefined name), l) else (.ok (), l)

/-- A ledger as a platform. -/
def platform : Platform Ledger Nat Nat String String where
  newModule l := l.newModule
  newVariable m observer l :=
    let v := l.vars
    (v, { l with vars := v + 1, live := l.live ++ [v] }.write (.newVariable m v observer))
  define := define
  importing := importing
  derive m injections source l :=
    let (derived, l) := l.giveModule
    (derived, l.write (.derive m injections source derived))
  delete v l := { l with live := l.live.filter (· ≠ v) }.write (.delete v)
  constant text := text

/-- A kit over a ledger: the definition of a cell is its code, which may not be empty. With `observe`,
named variables have an observer. -/
def kit (observe : Bool) : Kit Ledger Nat Nat String String :=
  { platform with
    compile := fun cell _ l =>
      let l := l.write (.compile cell.name)
      if cell.code = "" then (.error (.compile cell.displayName "empty"), l) else (.ok cell.code, l)
    observer := fun name => if observe then name.map ("see " ++ ·) else none }

/-- Gives every source a new module, but for those that start with `missing`. -/
def resolve : Resolver Ledger Nat String := fun request l =>
  let l := l.write (.resolve request.source request.home (request.observer (some "probe")))
  if (Text.dropFront? "missing".toList request.source.toList).isSome then
    (.error (.resolve request.source "no such page"), l)
  else
    let (m, l) := l.newModule
    (.ok m, l)

end Ledger

end CellGraph
