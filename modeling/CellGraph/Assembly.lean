import CellGraph.Extraction.Descriptors
import CellGraph.Platform

/-!
# Assemblies

An assembly registers the cells of a notebook in a module of a platform. Value cells are defined as
they come; imports wait until `finalize`, which wires them in order, each with one variable for every
specifier and a proxy that shows the import as a statement. So every value cell is in place before
the first import is resolved.

An import that fails leaves no variable behind and stays pending, together with those after it.
-/

namespace CellGraph

/-- The variables of one import. -/
structure Group (V : Type) where
  source : String
  /-- One variable for each specifier, in order. -/
  members : List V
  /-- The variable that shows the statement. -/
  proxy : V

/-- An assembly with the state of its platform. -/
structure Assembly (S M V : Type) where
  store : S
  /-- The module that the cells are registered in. -/
  home : M
  /-- The variables of the value cells, in the order of registration. -/
  vars : List V := []
  /-- The imports wired so far. -/
  groups : List (Group V) := []
  /-- The imports that wait. -/
  pending : List ImportCell := []

namespace Assembly

variable {S M V D O : Type}

/-- An assembly in a given module, or in a new one. -/
def start (kit : Kit S M V D O) (home : Option M) (store : S) : Assembly S M V :=
  match home with
  | some home => { store, home }
  | none =>
    let (home, store) := kit.newModule store
    { store, home }

/-! ## Cells -/

/-- Registers a value cell. -/
def addValue (kit : Kit S M V D O) (cell : ValueCell) (a : Assembly S M V) :
    Except Error Unit × Assembly S M V :=
  match kit.compile cell a.home a.store with
  | (.error e, store) => (.error e, { a with store })
  | (.ok definition, store) =>
    let (v, store) := kit.newVariable a.home (kit.observer cell.name) store
    match kit.define v cell.name cell.references definition store with
    | (.error fault, store) => (.error (.graph fault), { a with store })
    | (.ok (), store) => (.ok (), { a with store, vars := a.vars ++ [v] })

/-- Puts an import at the end of those that wait. -/
def addImport (cell : ImportCell) (a : Assembly S M V) : Assembly S M V :=
  { a with pending := a.pending ++ [cell] }

/-- Takes in a cell. -/
def add (kit : Kit S M V D O) (cell : Descriptor) (a : Assembly S M V) :
    Except Error Unit × Assembly S M V :=
  match cell with
  | .value cell => a.addValue kit cell
  | .imports cell => (.ok (), a.addImport cell)

/-- Takes in cells in order, up to the first that fails. -/
def addAll (kit : Kit S M V D O) :
    List Descriptor → Assembly S M V → Except Error Unit × Assembly S M V
  | [], a => (.ok (), a)
  | cell :: cells, a =>
    match a.add kit cell with
    | (.error e, a) => (.error e, a)
    | (.ok (), a) => addAll kit cells a

/-- Takes in the cells of a stored notebook. -/
def visit (kit : Kit S M V D O) (n : Notebook) (a : Assembly S M V) :
    Except Error Unit × Assembly S M V :=
  a.addAll kit n.cells

/-- Takes in what a parsed cell declares. -/
def addParsed (kit : Kit S M V D O) (p : ParsedCell) (a : Assembly S M V) :
    Except Error Unit × Assembly S M V :=
  match Extraction.descriptors p with
  | .error e => (.error e, a)
  | .ok cells => a.addAll kit cells

/-! ## Imports -/

/-- Makes a variable for each specifier and imports into it. Also the variables made, the failed one
last. -/
def wireMembers (kit : Kit S M V D O) (home imported : M) :
    List Binding → S → Except Fault Unit × List V × S
  | [], store => (.ok (), [], store)
  | b :: bindings, store =>
    let (v, store) := kit.newVariable home (kit.observer (some b.newName)) store
    match kit.importing v b.name b.newName imported store with
    | (.error fault, store) => (.error fault, [v], store)
    | (.ok (), store) =>
      let (result, members, store) := wireMembers kit home imported bindings store
      (result, v :: members, store)

/-- Deletes variables in order. -/
def deleteAll (kit : Kit S M V D O) (vars : List V) (store : S) : S :=
  vars.foldl (fun store v => kit.delete v store) store

/-- Makes the variables of an import whose module is at hand; a failure takes them all back. -/
def wireGroup (kit : Kit S M V D O) (cell : ImportCell) (home imported : M) (store : S) :
    Except Fault (Group V) × S :=
  match wireMembers kit home imported cell.specifiers store with
  | (.error fault, members, store) => (.error fault, deleteAll kit members store)
  | (.ok (), members, store) =>
    let (proxy, store) := kit.newVariable home (kit.observer none) store
    match kit.define proxy none [] (kit.constant (kit.format cell)) store with
    | (.error fault, store) => (.error fault, deleteAll kit (members ++ [proxy]) store)
    | (.ok (), store) => (.ok { source := cell.source, members, proxy }, store)

/-- Wires one import: resolves its source, derives the module if there are injections, and makes its
variables. -/
def wire (kit : Kit S M V D O) (resolve : Resolver S M O) (cell : ImportCell)
    (a : Assembly S M V) : Except Error Unit × Assembly S M V :=
  let request := { source := cell.source, home := a.home, observer := kit.observer }
  match resolve request a.store with
  | (.error e, store) => (.error e, { a with store })
  | (.ok imported, store) =>
    let (imported, store) :=
      if cell.injections = [] then (imported, store)
      else kit.derive imported cell.injections a.home store
    match wireGroup kit cell a.home imported store with
    | (.error fault, store) => (.error (.graph fault), { a with store })
    | (.ok group, store) => (.ok (), { a with store, groups := a.groups ++ [group] })

/-- Wires imports in order, up to the first that fails; that one and those after it are left
pending. -/
def wireAll (kit : Kit S M V D O) (resolve : Resolver S M O) :
    List ImportCell → Assembly S M V → Except Error Unit × Assembly S M V
  | [], a => (.ok (), { a with pending := [] })
  | cell :: cells, a =>
    match a.wire kit resolve cell with
    | (.error e, a) => (.error e, { a with pending := cell :: cells })
    | (.ok (), a) => wireAll kit resolve cells a

/-- Wires the imports that wait. -/
def finalize (kit : Kit S M V D O) (resolve : Resolver S M O) (a : Assembly S M V) :
    Except Error Unit × Assembly S M V :=
  a.wireAll kit resolve a.pending

/-- Deletes the variables of an import, the proxy last. -/
def deleteGroup (kit : Kit S M V D O) (group : Group V) (store : S) : S :=
  deleteAll kit (group.members ++ [group.proxy]) store

/-- Removes a wired import with its variables; the group, if there is one at that place. -/
def removeImport (kit : Kit S M V D O) (index : Nat) (a : Assembly S M V) :
    Option (Group V) × Assembly S M V :=
  match a.groups[index]? with
  | none => (none, a)
  | some group =>
    (some group,
      { a with groups := a.groups.eraseIdx index, store := deleteGroup kit group a.store })

/-! ## Results -/

/-- The variables of an assembly: those of the value cells, and one proxy for each import. -/
def nodes (a : Assembly S M V) : List V :=
  a.vars ++ a.groups.map Group.proxy

/-- Registers a batch of cells and wires its imports. -/
def compile (kit : Kit S M V D O) (resolve : Resolver S M O) (cells : List Descriptor)
    (home : Option M) (store : S) : Except Error Unit × Assembly S M V :=
  match (start kit home store).addAll kit cells with
  | (.error e, a) => (.error e, a)
  | (.ok (), a) => a.finalize kit resolve

end Assembly

end CellGraph
