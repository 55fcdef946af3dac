import CellGraph.Graph.Basic

/-!
# Evaluation

Values are computed on demand and kept. To evaluate a variable is to read its inputs by name in its
module, or the imported name in the source module, and to run its rule unless the stamps of what was
read are those of the last run. A variable met again on its own path is circular; a name that no
variable of the module has may still be a capability's.

A path holds each variable at most once, so no path is longer than there are variables: that bounds
the depth of evaluation (`depth`).

`settle` evaluates the observed and the anonymous variables, pass after pass, until a pass runs no
rule. Anonymous variables are there for their effects, which is why they are always evaluated.
-/

namespace CellGraph.Graph

variable {σ : Type}

/-- A way to evaluate a variable. -/
abbrev Evaluator (σ : Type) := Slot → Graph σ → Except Fault Value × Graph σ

/-- The version that belongs to a result: that of a mutable, else zero. -/
def versionOf (g : Graph σ) : Except Fault Value → Nat
  | .ok value => g.world.heap.versionOf value
  | .error _ => 0

/-- The result for a name that no variable of the module has. -/
def builtin (name : String) : Except Fault Value :=
  match Intrinsic.ofName? name with
  | some which => .ok (.intrinsic which)
  | none => .error (.notDefined name)

/-- Reads a name in a module. -/
def read (eval : Evaluator σ) (m : ModuleId) (name : String) (g : Graph σ) : Stamp × Graph σ :=
  match g.lookup m name with
  | some slot =>
    let (result, g) := eval slot g
    ({ result, version := g.versionOf result }, g)
  | none => ({ result := builtin name, version := 0 }, g)

/-- Reads names in a module, one after the other. -/
def readAll (eval : Evaluator σ) (m : ModuleId) : List String → Graph σ → List Stamp × Graph σ
  | [], g => ([], g)
  | name :: names, g =>
    let (stamp, g) := read eval m name g
    let (stamps, g) := readAll eval m names g
    (stamp :: stamps, g)

/-- Reads what a variable depends on. -/
def readInputs (eval : Evaluator σ) (v : Variable σ) (g : Graph σ) : List Stamp × Graph σ :=
  match v.rule with
  | .importing name source => readAll eval source [name] g
  | _ => readAll eval v.home v.inputs g

/-- The values of stamps, or the first fault among them. -/
def values : List Stamp → Except Fault (List Value)
  | [] => .ok []
  | stamp :: stamps =>
    match stamp.result with
    | .ok value => (values stamps).map (value :: ·)
    | .error fault => .error fault

/-- Runs a body over stamps: the first fault among them, or the body over their values. -/
def call (g : Graph σ) (body : Body σ) (stamps : List Stamp) : Except Fault Value × Graph σ :=
  match values stamps with
  | .error fault => (.error fault, g)
  | .ok inputs =>
    let outcome := body inputs g.world
    (outcome.result, outcome.deleted.foldl delete { g with world := outcome.world })

/-- Applies a rule to what was read, which counts as a run. -/
def run (g : Graph σ) (rule : Rule σ) (stamps : List Stamp) : Except Fault Value × Graph σ :=
  let g := { g with runs := g.runs + 1 }
  match rule with
  | .undefined => (.ok .undefined, g)
  | .importing name _ => ((stamps.head?.map Stamp.result).getD (.error (.notDefined name)), g)
  | .define body => g.call body stamps

/-- The kept result of a variable, if it belongs to the given stamps. -/
def cached? (g : Graph σ) (slot : Slot) (stamps : List Stamp) : Option (Except Fault Value) := do
  let cache ← (← g.vars.get? slot).cache
  if Stamp.sameList cache.stamps stamps then some cache.result else none

/-- What an observer is told of a result. -/
def eventOf : Except Fault Value → Event
  | .ok value => .fulfilled value
  | .error fault => .rejected fault

/-- Keeps a result and tells the observer if it differs from the last one. A variable that its own
run has deleted keeps nothing. -/
def keep (g : Graph σ) (slot : Slot) (stamps : List Stamp) (result : Except Fault Value) : Graph σ :=
  match g.vars.get? slot with
  | none => g
  | some v =>
    let unchanged := match v.cache with
      | some cache => sameResult cache.result result
      | none => false
    let g := { g with vars := g.vars.set slot { v with cache := some { stamps, result } } }
    if unchanged then g else g.notify slot v.observer (eventOf result)

/-- The result that belongs to what was read: the kept one, or that of a new run. -/
def conclude (g : Graph σ) (slot : Slot) (rule : Rule σ) (stamps : List Stamp) :
    Except Fault Value × Graph σ :=
  match g.cached? slot stamps with
  | some result => (result, g)
  | none =>
    let (result, g) := g.run rule stamps
    (result, g.keep slot stamps result)

/-- Evaluates a variable on a path of variables that wait for it, at most `depth` variables deep. -/
def evaluateWithin : (depth : Nat) → (path : List Slot) → Evaluator σ
  | depth, path, slot, g =>
    if slot ∈ path then (.error (.circular (g.label slot)), g)
    else match g.vars.get? slot with
      | none => (.error .deleted, g)
      | some v =>
        match depth with
        | 0 => (.error (.circular (g.label slot)), g)
        | depth + 1 =>
          let (stamps, g) := readInputs (evaluateWithin depth (slot :: path)) v g
          g.conclude slot v.rule stamps

/-- Evaluates a variable. -/
def evaluate (g : Graph σ) (slot : Slot) : Except Fault Value × Graph σ :=
  evaluateWithin g.vars.size [] slot g

/-! ## Settling -/

/-- Whether a variable is evaluated without being asked for: it is observed or anonymous. -/
def isRoot (v : Variable σ) : Bool :=
  v.observer.isSome || v.name.isNone

/-- The variables that are evaluated without being asked for, in the order of their places. -/
def roots (g : Graph σ) : List Slot :=
  (g.vars.toList.filter fun (_, v) => isRoot v).map Prod.fst

/-- Evaluates the given variables, one after the other. -/
def evaluateAll (g : Graph σ) (slots : List Slot) : Graph σ :=
  slots.foldl (fun g slot => (g.evaluate slot).2) g

/-- One pass over the roots. -/
def pass (g : Graph σ) : Graph σ :=
  g.evaluateAll g.roots

/-- Passes until one runs no rule, or until none are left. -/
def settleWithin : (passes : Nat) → Graph σ → Except Fault Unit × Graph σ
  | 0, g => (.error (.unsettled g.maxPasses), g)
  | passes + 1, g =>
    let next := g.pass
    if next.runs = g.runs then (.ok (), next) else settleWithin passes next

/-- Settles the graph. -/
def settle (g : Graph σ) : Except Fault Unit × Graph σ :=
  settleWithin g.maxPasses g

/-- Settles the graph, then evaluates the variable with a name in a module. -/
def value (g : Graph σ) (m : ModuleId) (name : String) : Except Fault Value × Graph σ :=
  match g.settle with
  | (.error fault, g) => (.error fault, g)
  | (.ok (), g) =>
    match g.lookup m name with
    | none => (.error (.notDefined name), g)
    | some slot => g.evaluate slot

end CellGraph.Graph
