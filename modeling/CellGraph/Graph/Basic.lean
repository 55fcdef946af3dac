import CellGraph.Error
import CellGraph.Notebook.Basic
import CellGraph.Slots
import CellGraph.Value

/-!
# Graphs of variables

A graph holds variables, which live in modules. A variable has a rule: nothing yet, a body over named
inputs, or an import of a name from another module. A module is a scope of names; the last variable
registered under a name has it.

A body is given by the host. It sees the values of its inputs and the mutables, may keep memory of its
own (of any type `σ`), and may ask for variables to be deleted.

Observers are labels. What they are told is kept in the graph's log.
-/

namespace CellGraph

/-- A module of a graph. -/
structure ModuleId where
  index : Nat
deriving DecidableEq, Repr

/-- What bodies can see and change: the mutables, and the host's own memory. -/
structure World (σ : Type) where
  heap : Heap := {}
  host : σ

/-- What comes of running a body. -/
structure Outcome (σ : Type) where
  result : Except Fault Value
  world : World σ
  /-- The variables that the body deleted. -/
  deleted : List Slot := []

/-- The body of a variable: from the values of its inputs to its value. -/
abbrev Body (σ : Type) := List Value → World σ → Outcome σ

/-- The body that always has the same value. -/
def Body.constant {σ : Type} (value : Value) : Body σ :=
  fun _ world => { result := .ok value, world }

/-- What determines a variable's value. -/
inductive Rule (σ : Type) where
  | undefined
  | define (body : Body σ)
  | importing (name : String) (source : ModuleId)

/-- What was read for one input: a result, and the version of a mutable at that moment. -/
structure Stamp where
  result : Except Fault Value
  version : Nat

/-- The result of a variable's last run with the stamps of its inputs. -/
structure Cache where
  stamps : List Stamp
  result : Except Fault Value

/-- A variable. -/
structure Variable (σ : Type) where
  /-- The module that the variable lives in. -/
  home : ModuleId
  name : Option String := none
  inputs : List String := []
  rule : Rule σ := .undefined
  observer : Option String := none
  cache : Option Cache := none

/-- What an observer is told. -/
inductive Event where
  | pending
  | fulfilled (value : Value)
  | rejected (fault : Fault)

/-- An entry of the log: which variable's observer was told what, and the mutables at that moment. -/
structure Notice where
  slot : Slot
  observer : String
  event : Event
  heap : Heap

/-- The names of a module. -/
abbrev Scope := List (String × Slot)

/-- A graph of variables. -/
structure Graph (σ : Type) where
  vars : Slots (Variable σ) := {}
  scopes : Array Scope := #[]
  /-- How many rules have been run. -/
  runs : Nat := 0
  world : World σ
  log : List Notice := []
  /-- How many passes the graph gets to settle. -/
  maxPasses : Nat := 64

/-! ## Equality of results -/

/-- Equality of results: values as values, faults as faults. -/
def sameResult : Except Fault Value → Except Fault Value → Bool
  | .ok a, .ok b => a.same b
  | .error a, .error b => a == b
  | _, _ => false

/-- Equality of stamps. -/
def Stamp.same (a b : Stamp) : Bool :=
  sameResult a.result b.result && a.version == b.version

/-- Equality of lists of stamps. -/
def Stamp.sameList : List Stamp → List Stamp → Bool
  | [], [] => true
  | a :: as, b :: bs => a.same b && sameList as bs
  | _, _ => false

/-! ## Scopes -/

namespace Scope

/-- Frees a name. -/
def erase (name : String) (scope : Scope) : Scope :=
  scope.filter fun (n, _) => n ≠ name

/-- Gives a name to a variable. -/
def bind (name : String) (slot : Slot) (scope : Scope) : Scope :=
  (name, slot) :: erase name scope

/-- Frees a name if the given variable has it. -/
def release (name : String) (slot : Slot) (scope : Scope) : Scope :=
  if scope.lookup name = some slot then erase name scope else scope

end Scope

namespace Graph

variable {σ : Type}

/-- An empty graph over the host's memory. -/
def empty (host : σ) (maxPasses : Nat := 64) : Graph σ :=
  { world := { host }, maxPasses }

/-- The names of a module; none for a module that does not exist. -/
def scope (g : Graph σ) (m : ModuleId) : Scope :=
  g.scopes[m.index]?.getD []

/-- Changes the names of a module. -/
def changeScope (g : Graph σ) (m : ModuleId) (f : Scope → Scope) : Graph σ :=
  { g with scopes := g.scopes.modify m.index f }

/-- The variable that has a name in a module. -/
def lookup (g : Graph σ) (m : ModuleId) (name : String) : Option Slot :=
  (g.scope m).lookup name

/-- The name of a variable, or a label for an anonymous or deleted one. -/
def label (g : Graph σ) (slot : Slot) : String :=
  ((g.vars.get? slot).bind Variable.name).getD anonymousLabel

/-- Tells the observer of a variable, if it has one. -/
def notify (g : Graph σ) (slot : Slot) (observer : Option String) (event : Event) : Graph σ :=
  match observer with
  | some observer =>
    { g with log := g.log ++ [{ slot, observer, event, heap := g.world.heap }] }
  | none => g

/-! ## Modules and variables -/

/-- A new module without names. -/
def newModule (g : Graph σ) : ModuleId × Graph σ :=
  ({ index := g.scopes.size }, { g with scopes := g.scopes.push [] })

/-- A new variable without a rule. -/
def newVariable (g : Graph σ) (m : ModuleId) (observer : Option String := none) : Slot × Graph σ :=
  let (slot, vars) := g.vars.insert { home := m, observer }
  (slot, { g with vars })

/-- Frees the name of a variable if the variable has it in its module. -/
def releaseName (g : Graph σ) (slot : Slot) (v : Variable σ) : Graph σ :=
  match v.name with
  | some name => g.changeScope v.home (Scope.release name slot)
  | none => g

/-- Gives a variable a name, inputs and a rule, in place of what it had. A variable that was deleted
cannot be registered again. -/
def register (g : Graph σ) (slot : Slot) (name : Option String) (inputs : List String)
    (rule : Rule σ) : Except Fault (Graph σ) :=
  match g.vars.get? slot with
  | none => .error .deleted
  | some v =>
    let g := g.releaseName slot v
    let g := match name with
      | some name => g.changeScope v.home (Scope.bind name slot)
      | none => g
    let g := { g with
      vars := g.vars.set slot { v with name, inputs, rule, cache := none } }
    .ok (g.notify slot v.observer .pending)

/-- Gives a variable a body over named inputs. -/
def define (g : Graph σ) (slot : Slot) (name : Option String) (inputs : List String)
    (body : Body σ) : Except Fault (Graph σ) :=
  g.register slot name inputs (.define body)

/-- Makes a variable the import of a name from another module, under an alias. -/
def importing (g : Graph σ) (slot : Slot) (name newName : String) (source : ModuleId) :
    Except Fault (Graph σ) :=
  g.register slot (some newName) [] (.importing name source)

/-- Deletes a variable; one that is deleted already stays so. -/
def delete (g : Graph σ) (slot : Slot) : Graph σ :=
  match g.vars.remove slot with
  | (none, _) => g
  | (some v, vars) => { g with vars }.releaseName slot v

/-! ## Views -/

/-- A row of a module's table: a variable's name and inputs, and the name that an import reads. -/
structure Row where
  name : Option String
  inputs : List String
  imported : Option String
deriving DecidableEq, Repr

/-- The row of a variable. -/
def rowOf (v : Variable σ) : Row :=
  { name := v.name
    inputs := v.inputs
    imported := match v.rule with
      | .importing name _ => some name
      | _ => none }

/-- The variables of a module, in the order of their places. -/
def rows (g : Graph σ) (m : ModuleId) : List Row :=
  (g.vars.toList.filter fun (_, v) => v.home = m).map fun (_, v) => rowOf v

end Graph

end CellGraph
