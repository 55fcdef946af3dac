import CellGraph.Graph.Basic

/-!
# Derived modules

A derived module is a private copy of a module in which some names come from elsewhere. It has a copy
of every variable that has a name in the module, with the same inputs and rule, and for each injection
an import under its alias. Copies are not observed.
-/

namespace CellGraph.Graph

variable {σ : Type}

/-- A new variable that has a name in a module from the start. -/
def addNamed (g : Graph σ) (m : ModuleId) (name : String) (inputs : List String) (rule : Rule σ) :
    Graph σ :=
  let (slot, vars) := g.vars.insert { home := m, name := some name, inputs, rule }
  { g with vars }.changeScope m (Scope.bind name slot)

/-- The variables that have a name in a module, in the order of their places. -/
def named (g : Graph σ) (m : ModuleId) : List (String × Variable σ) :=
  g.vars.toList.filterMap fun (slot, v) =>
    match v.name with
    | some name => if g.lookup m name = some slot then some (name, v) else none
    | none => none

/-- A copy of a module in which the alias of each injection is an import of its name from `source`. -/
def derive (g : Graph σ) (m : ModuleId) (injections : List Binding) (source : ModuleId) :
    ModuleId × Graph σ :=
  let copies := g.named m
  let (derived, g) := g.newModule
  let g := copies.foldl (fun g (name, v) => g.addNamed derived name v.inputs v.rule) g
  let g := injections.foldl
    (fun g b => g.addNamed derived b.newName [] (.importing b.name source)) g
  (derived, g)

end CellGraph.Graph
