import CellGraph.Library
import CellGraph.Proofs.Assembly.Order
import CellGraph.Proofs.Graph.Tables

/-!
# Compiling with a loader

What compiling a notebook does, given some way to load the modules of its imports. Of the state, the
compilation itself changes nothing but the graph; the rest is for the loader. In a tidy graph nothing but a
cell that cannot be compiled and an address that cannot be loaded makes it fail (`addValues_spec`,
`wire_of_loaded`), and the rows of each cell come to the end of the table of its module.

`Invariant.compileWith` is the rule for a whole notebook: what each call of the loader keeps, after all
calls before it, the compilation keeps, after all the calls that it makes. `compileWith_congr` says that
only these calls matter, and `compileWith_appends` which rows there are in the end.
-/

namespace CellGraph

open Assembly CellGraph.Graph

/-! ## Cells -/

/-- A cell that can be compiled where no language is known. -/
def ValueCell.Compiles [Text.IdentifierTable] (cell : ValueCell) : Prop :=
  ∃ body : Body Unit, ∀ world, compileCell .unavailable cell world = (.ok body, world)

/-- The row of a value cell. -/
def ValueCell.row (cell : ValueCell) : Row :=
  { name := cell.name, inputs := cell.references, imported := none }

/-- The row of the variable for a specifier. -/
def Binding.row (b : Binding) : Row :=
  { name := some b.newName, inputs := [], imported := some b.name }

/-- The rows of an import: one for each specifier, and that of the proxy. -/
def ImportCell.rows (cell : ImportCell) : List Row :=
  cell.specifiers.map Binding.row ++ [{ name := none, inputs := [], imported := none }]

/-- The table of a notebook: the rows of its value cells, and then those of its imports. -/
def Notebook.table (n : Notebook) : List Row :=
  (valueCells n.cells).map ValueCell.row ++ (importCells n.cells).flatMap ImportCell.rows

namespace Library

/-- In a tidy graph, a new variable can be registered, and gets its row. -/
theorem attempt_register {g h : Graph Unit} {home : ModuleId} {name : Option String}
    {inputs : List String} {rule : Rule Unit} {result : Except Fault Unit}
    (hattempt : attempt (fun g' => g'.register (g.newVariable home none).1 name inputs rule)
      (g.newVariable home none).2 = (result, h)) (htidy : g.Tidy) (hhome : g.HasModule home) :
    result = .ok () ∧ Appends home [rowOf { home, name, inputs, rule }] g h := by
  obtain ⟨next, hregister, happends⟩ := htidy.declare hhome none name inputs rule
  rw [attempt, hregister] at hattempt
  cases hattempt
  exact ⟨rfl, happends⟩

variable [Text.IdentifierTable] {l : Library} {load : Load} {n : Notebook} {s : State}

/-! ## The kit of a library

Each operation changes the graph of the state, and nothing else. -/

theorem kit_newVariable (home : ModuleId) (name : Option String) (s : State) :
    kit.newVariable home (kit.observer name) s =
      ((s.graph.newVariable home none).1, { s with graph := (s.graph.newVariable home none).2 }) :=
  rfl

theorem kit_define (slot : Slot) (name : Option String) (inputs : List String) (body : Body Unit)
    (s : State) :
    let out := attempt (fun g => g.register slot name inputs (.define body)) s.graph
    kit.define slot name inputs body s = (out.1, { s with graph := out.2 }) :=
  rfl

theorem kit_importing (slot : Slot) (name newName : String) (source : ModuleId) (s : State) :
    let out := attempt (fun g => g.register slot (some newName) [] (.importing name source)) s.graph
    kit.importing slot name newName source s = (out.1, { s with graph := out.2 }) :=
  rfl

theorem kit_compile (cell : ValueCell) (home : ModuleId) (s : State) :
    let out := compileCell .unavailable cell s.graph.world
    kit.compile cell home s = (out.1, { s with graph := { s.graph with world := out.2 } }) :=
  rfl

/-- A value cell changes nothing but the graph. In a tidy graph it fails only if it cannot be compiled, and
else it adds its row to the table. -/
theorem addValue_spec (cell : ValueCell) (a : Assembly State ModuleId Slot) :
    ∃ result g vars, a.addValue kit cell = (result, { a with store := { a.store with graph := g }, vars }) ∧
      (a.store.graph.Tidy → a.store.graph.HasModule a.home →
        (cell.Compiles → result = .ok ()) ∧
        ∃ new, Appends a.home new a.store.graph g ∧ (result = .ok () → new = [cell.row])) := by
  rcases hcompile : compileCell .unavailable cell a.store.graph.world with ⟨e | body, world⟩
  · refine ⟨.error e, { a.store.graph with world }, a.vars, ?_, fun htidy _ => ⟨?_, [], ?_, nofun⟩⟩
    · simp only [addValue, kit_compile, hcompile]
    · rintro ⟨body, hbody⟩
      rw [hbody] at hcompile
      cases hcompile
    · exact htidy.appends_of_vars (h := { a.store.graph with world }) rfl rfl a.home
  · have hsame := fun htidy : a.store.graph.Tidy =>
      htidy.appends_of_vars (h := { a.store.graph with world }) rfl rfl a.home
    generalize hg : ({ a.store.graph with world } : Graph Unit) = g₀ at hsame
    rcases hregister : attempt (fun g => g.register (g₀.newVariable a.home none).1 cell.name
      cell.references (.define body)) (g₀.newVariable a.home none).2 with ⟨fault | ⟨⟨⟩⟩, g⟩
    · refine ⟨.error (.graph fault), g, a.vars, ?_, fun htidy hhome => ?_⟩
      · simp only [addValue, kit_compile, hcompile, hg, kit_newVariable, kit_define, hregister]
      · have happends := hsame htidy
        cases (attempt_register hregister happends.tidy (happends.hasModule hhome)).1
    · refine ⟨.ok (), g, a.vars ++ [(g₀.newVariable a.home none).1], ?_, fun htidy hhome => ?_⟩
      · simp only [addValue, kit_compile, hcompile, hg, kit_newVariable, kit_define, hregister]
      · have happends := hsame htidy
        have hrow := (attempt_register hregister happends.tidy (happends.hasModule hhome)).2
        exact ⟨fun _ => rfl, [cell.row], happends.trans hrow, fun _ => rfl⟩

theorem addValues_spec (cells : List ValueCell) (a : Assembly State ModuleId Slot) :
    ∃ result g vars, a.addValues kit cells = (result, { a with store := { a.store with graph := g }, vars }) ∧
      (a.store.graph.Tidy → a.store.graph.HasModule a.home →
        ((∀ cell ∈ cells, cell.Compiles) → result = .ok ()) ∧
        ∃ new, Appends a.home new a.store.graph g ∧ (result = .ok () → new = cells.map ValueCell.row)) := by
  induction cells generalizing a with
  | nil =>
      refine ⟨.ok (), a.store.graph, a.vars, rfl, fun htidy _ => ⟨fun _ => rfl, [], ?_, fun _ => rfl⟩⟩
      exact htidy.appends_refl a.home
  | cons cell cells ih =>
      obtain ⟨result, g, vars, hadd, hspec⟩ := addValue_spec cell a
      rcases result with e | ⟨⟨⟩⟩
      · refine ⟨.error e, g, vars, by rw [addValues, hadd], fun htidy hhome => ?_⟩
        obtain ⟨hcompiles, new, happends, -⟩ := hspec htidy hhome
        exact ⟨fun hall => hcompiles (hall cell (by simp)), new, happends, by rintro ⟨⟩⟩
      · obtain ⟨result', g', vars', hrest, hspec'⟩ :=
          ih { a with store := { a.store with graph := g }, vars }
        refine ⟨result', g', vars', by rw [addValues, hadd]; exact hrest, fun htidy hhome => ?_⟩
        obtain ⟨-, new, happends, hrow⟩ := hspec htidy hhome
        obtain ⟨hcompiles, new', happends', hrows⟩ := hspec' happends.tidy (happends.hasModule hhome)
        refine ⟨fun hall => hcompiles fun other hother => hall other (List.mem_cons_of_mem _ hother),
          new ++ new', happends.trans happends', fun hok => ?_⟩
        rw [hrow rfl, hrows hok]
        rfl

/-! ## Imports -/

/-- The variables for the specifiers change nothing but the graph. In a tidy graph they can all be made. -/
theorem wireMembers_spec (home imported : ModuleId) (bindings : List Binding) (s : State) :
    ∃ result members g, wireMembers kit home imported bindings s = (result, members, { s with graph := g }) ∧
      (s.graph.Tidy → s.graph.HasModule home →
        result = .ok () ∧ Appends home (bindings.map Binding.row) s.graph g) := by
  induction bindings generalizing s with
  | nil => exact ⟨.ok (), [], s.graph, rfl, fun htidy _ => ⟨rfl, htidy.appends_refl home⟩⟩
  | cons b bindings ih =>
      rcases hregister : attempt (fun g => g.register (s.graph.newVariable home none).1 (some b.newName) []
        (.importing b.name imported)) (s.graph.newVariable home none).2 with ⟨result, g⟩
      rcases result with fault | ⟨⟨⟩⟩
      · refine ⟨.error fault, [(s.graph.newVariable home none).1], g, ?_, fun htidy hhome => ?_⟩
        · simp only [wireMembers, kit_newVariable, kit_importing, hregister]
        · cases (attempt_register hregister htidy hhome).1
      · obtain ⟨result', members, g', hrest, hspec⟩ := ih { s with graph := g }
        refine ⟨result', (s.graph.newVariable home none).1 :: members, g', ?_, fun htidy hhome => ?_⟩
        · simp only [wireMembers, kit_newVariable, kit_importing, hregister, hrest]
        · have happends := (attempt_register hregister htidy hhome).2
          obtain ⟨hok, happends'⟩ := hspec happends.tidy (happends.hasModule hhome)
          exact ⟨hok, happends.trans happends'⟩

theorem deleteAll_spec (vars : List Slot) (s : State) :
    ∃ g, deleteAll kit vars s = { s with graph := g } := by
  induction vars generalizing s with
  | nil => exact ⟨s.graph, rfl⟩
  | cons v vars ih => exact ih (kit.delete v s)

/-- So does a whole group. -/
theorem wireGroup_spec (cell : ImportCell) (home imported : ModuleId) (s : State) :
    ∃ result g, wireGroup kit cell home imported s = (result, { s with graph := g }) ∧
      (s.graph.Tidy → s.graph.HasModule home →
        (∃ group, result = .ok group) ∧ Appends home cell.rows s.graph g) := by
  have hconstant : kit.constant (kit.format cell) = .constant (.data (.string cell.statement)) := rfl
  obtain ⟨result, members, g, hmembers, hspec⟩ := wireMembers_spec home imported cell.specifiers s
  rcases result with fault | ⟨⟨⟩⟩
  · obtain ⟨g', hdelete⟩ := deleteAll_spec members { s with graph := g }
    refine ⟨.error fault, g', by simp only [wireGroup, hmembers, hdelete], fun htidy hhome => ?_⟩
    cases (hspec htidy hhome).1
  · rcases hregister : attempt (fun g' => g'.register (g.newVariable home none).1 none []
      (.define (.constant (.data (.string cell.statement))))) (g.newVariable home none).2 with ⟨result, g'⟩
    rcases result with fault | ⟨⟨⟩⟩
    · obtain ⟨g'', hdelete⟩ := deleteAll_spec (members ++ [(g.newVariable home none).1])
        { s with graph := g' }
      refine ⟨.error fault, g'', ?_, fun htidy hhome => ?_⟩
      · simp only [wireGroup, hmembers, kit_newVariable, kit_define, hconstant, hregister, hdelete]
      · have happends := (hspec htidy hhome).2
        cases (attempt_register hregister happends.tidy (happends.hasModule hhome)).1
    · refine ⟨.ok ⟨cell.source, members, (g.newVariable home none).1⟩, g', ?_, fun htidy hhome => ?_⟩
      · simp only [wireGroup, hmembers, kit_newVariable, kit_define, hconstant, hregister]
      · have happends := (hspec htidy hhome).2
        have hproxy := attempt_register hregister happends.tidy (happends.hasModule hhome)
        exact ⟨⟨_, rfl⟩, happends.trans hproxy.2⟩

/-- The address that an import is loaded from. -/
def target (l : Library) (cell : ImportCell) : String :=
  l.host.expand cell.source

/-- An import whose address cannot be loaded fails with the error of that. -/
theorem wire_of_failed {cell : ImportCell} {a : Assembly State ModuleId Slot} {e : Error} {s : State}
    (hload : load (l.target cell) a.store = (.error e, s)) :
    a.wire kit (l.resolver load) cell = (.error e, { a with store := s }) := by
  simp only [wire, resolver]
  rw [show load (l.host.expand cell.source) a.store = _ from hload]

/-- Any other import changes nothing further but the graph. In a tidy graph it is wired and adds its rows
to the table. -/
theorem wire_of_loaded {cell : ImportCell} {a : Assembly State ModuleId Slot} {m : ModuleId} {s : State}
    (hload : load (l.target cell) a.store = (.ok m, s)) :
    ∃ result g groups, a.wire kit (l.resolver load) cell =
        (result, { a with store := { s with graph := g }, groups }) ∧
      (s.graph.Tidy → s.graph.HasModule a.home →
        result = .ok () ∧ Appends a.home cell.rows s.graph g) := by
  -- deriving a module, if there is anything to inject, adds no row
  obtain ⟨m', g, hderive, happends⟩ : ∃ m' g, (if cell.injections = [] then (m, s)
      else kit.derive m cell.injections a.home s) = (m', { s with graph := g }) ∧
      (s.graph.Tidy → Appends a.home [] s.graph g) := by
    split
    · exact ⟨m, s.graph, rfl, fun htidy => htidy.appends_refl a.home⟩
    · exact ⟨_, _, rfl, fun htidy => htidy.derive m cell.injections a.home a.home⟩
  obtain ⟨result, g', hgroup, hspec⟩ := wireGroup_spec cell a.home m' { s with graph := g }
  have hresolve : l.resolver load { source := cell.source, home := a.home, observer := kit.observer }
      a.store = (.ok m, s) := hload
  rcases result with fault | group
  · refine ⟨.error (.graph fault), g', a.groups, ?_, fun htidy hhome => ?_⟩
    · simp only [wire, hresolve, hderive, hgroup]
    · obtain ⟨⟨group, hok⟩, -⟩ := hspec (happends htidy).tidy ((happends htidy).hasModule hhome)
      cases hok
  · refine ⟨.ok (), g', a.groups ++ [group], ?_, fun htidy hhome => ⟨rfl, ?_⟩⟩
    · simp only [wire, hresolve, hderive, hgroup]
    · have hrows := (hspec (happends htidy).tidy ((happends htidy).hasModule hhome)).2
      exact (happends htidy).trans hrows

/-! ## Whole notebooks -/

/-- The addresses that a notebook imports from, in order. -/
def targets (l : Library) (n : Notebook) : List String :=
  (importCells n.cells).map l.target

/-- The calls of the loader that wiring imports makes, each with the state in which it comes. -/
def wiringCalls (l : Library) (load : Load) (cells : List ImportCell) (a : Assembly State ModuleId Slot) :
    List (String × State) :=
  (a.requests kit (l.resolver load) cells).map fun call => (l.host.expand call.1.source, call.2)

/-- The calls of the loader that compiling a notebook makes, each with the state in which it comes. -/
def calls (l : Library) (load : Load) (n : Notebook) (s : State) : List (String × State) :=
  match (start kit none s).addValues kit (valueCells n.cells) with
  | (.error _, _) => []
  | (.ok (), a) => l.wiringCalls load (importCells n.cells) a

/-- A notebook is compiled in two phases: its value cells, and then its imports. -/
theorem compileWith_eq (l : Library) (load : Load) (n : Notebook) (s : State) :
    l.compileWith load n s =
      match (start kit none s).addValues kit (valueCells n.cells) with
      | (.error e, a) => (.error e, a.store)
      | (.ok (), a) =>
        match a.wireAll kit (l.resolver load) (importCells n.cells) with
        | (.error e, b) => (.error e, b.store)
        | (.ok (), b) => (.ok b.home, b.store) := by
  have hsplit := addAll_split kit n.cells (start kit none s)
  unfold compileWith visit
  rcases hvalues : (start kit none s).addValues kit (valueCells n.cells) with ⟨e | ⟨⟨⟩⟩, a⟩
  · rw [hvalues] at hsplit
    obtain ⟨pending, hadd⟩ := hsplit
    rw [hadd]
  · rw [hvalues] at hsplit
    have hnothing : (start kit none s).pending = [] := rfl
    simp only [hnothing, List.nil_append] at hsplit
    rcases hwire : a.wireAll kit (l.resolver load) (importCells n.cells) with ⟨e | ⟨⟨⟩⟩, b⟩ <;>
      simp only [hsplit, finalize, wireAll_pending, hwire]

/-- A loader that touches the table of no module that is there. -/
def Spares (load : Load) : Prop :=
  ∀ url s, s.graph.Tidy → ∀ m, Appends m [] s.graph (load url s).2.graph

/-- What holds after some calls of the loader (`I`), and what holds after calls of which the last one or the
compilation itself failed (`F`), kept by all that happens while a notebook is compiled from a state. -/
structure Invariant (l : Library) (load : Load) (n : Notebook) (s : State)
    (I : List (String × State) → State → Prop) (F : List (String × State) → Error → State → Prop) :
    Prop where
  graph : ∀ {calls t} g, I calls t → I calls { t with graph := g }
  loaded : ∀ {calls url t m t'}, url ∈ l.targets n → I calls t → (s.graph.Tidy → t.graph.Tidy) →
    load url t = (.ok m, t') → I (calls ++ [(url, t)]) t'
  failed : ∀ {calls url t e t'}, url ∈ l.targets n → I calls t → (s.graph.Tidy → t.graph.Tidy) →
    load url t = (.error e, t') → F (calls ++ [(url, t)]) e t'
  broken : ∀ {calls t e g}, I calls t →
    (s.graph.Tidy → ∃ cell ∈ valueCells n.cells, ¬ cell.Compiles) → F calls e { t with graph := g }

section

variable {I : List (String × State) → State → Prop} {F : List (String × State) → Error → State → Prop}

/-- The rule for imports that are wired in order. -/
theorem Invariant.wireAll (h : Invariant l load n s I F) (hspares : Spares load)
    {cells : List ImportCell} (hcells : ∀ cell ∈ cells, l.target cell ∈ l.targets n)
    {calls : List (String × State)} {a : Assembly State ModuleId Slot} (ha : I calls a.store)
    (htidy : s.graph.Tidy → a.store.graph.Tidy ∧ a.store.graph.HasModule a.home) :
    (∀ b, a.wireAll kit (l.resolver load) cells = (.ok (), b) →
      I (calls ++ l.wiringCalls load cells a) b.store ∧
      (l.wiringCalls load cells a).map Prod.fst = cells.map l.target) ∧
    ∀ e b, a.wireAll kit (l.resolver load) cells = (.error e, b) →
      F (calls ++ l.wiringCalls load cells a) e b.store := by
  induction cells generalizing a calls with
  | nil =>
      refine ⟨fun b hb => ?_, by rintro _ _ ⟨⟩⟩
      cases hb
      simp only [wiringCalls, requests, List.map_nil, List.append_nil, and_true]
      exact ha
  | cons cell cells ih =>
      have htarget := hcells cell (by simp)
      have hfirst : l.host.expand (request kit a.home cell).source = l.target cell := rfl
      rcases hload : load (l.target cell) a.store with ⟨e | m, t⟩
      · -- the address cannot be loaded, and that is the last call
        have hwire := wire_of_failed hload
        simp only [Assembly.wireAll, wiringCalls, requests, hwire, List.map_cons, List.map_nil, hfirst]
        refine ⟨by rintro _ ⟨⟩, fun e' b hb => ?_⟩
        cases hb
        exact h.failed htarget ha (fun hs => (htidy hs).1) hload
      · have hnext := h.loaded htarget ha (fun hs => (htidy hs).1) hload
        have hspared := fun hs => hspares (l.target cell) a.store (htidy hs).1 a.home
        rw [hload] at hspared
        obtain ⟨result, g, groups, hwire, hspec⟩ := wire_of_loaded hload
        have hwired := fun hs => hspec (hspared hs).tidy ((hspared hs).hasModule (htidy hs).2)
        rcases result with e | ⟨⟨⟩⟩
        · -- in a tidy graph this import would have been wired
          simp only [Assembly.wireAll, wiringCalls, requests, hwire, List.map_cons, List.map_nil, hfirst]
          refine ⟨by rintro _ ⟨⟩, fun e' b hb => ?_⟩
          cases hb
          refine h.broken hnext fun hs => ?_
          cases (hwired hs).1
        · have hrest := ih (fun other hother => hcells other (List.mem_cons_of_mem _ hother))
            (a := { a with store := { t with graph := g }, groups }) (h.graph g hnext)
            fun hs => ⟨(hwired hs).2.tidy,
              (hwired hs).2.hasModule ((hspared hs).hasModule (htidy hs).2)⟩
          simp only [Assembly.wireAll, wiringCalls, requests, hwire, List.map_cons, hfirst]
          simp only [List.append_assoc, List.singleton_append, wiringCalls] at hrest
          refine ⟨fun b hb => ⟨(hrest.1 b hb).1, ?_⟩, hrest.2⟩
          rw [(hrest.1 b hb).2]

/-- The rule for a whole notebook. -/
theorem Invariant.compileWith (h : Invariant l load n s I F) (hspares : Spares load) (hs : I [] s) :
    (∀ m s', l.compileWith load n s = (.ok m, s') →
      I (l.calls load n s) s' ∧ (l.calls load n s).map Prod.fst = l.targets n) ∧
    ∀ e s', l.compileWith load n s = (.error e, s') → F (l.calls load n s) e s' := by
  obtain ⟨result, g, vars, hvalues, hspec⟩ := addValues_spec (valueCells n.cells) (start kit none s)
  have hstart : I [] (start kit none s).store := h.graph s.graph.newModule.2 hs
  have hvalid := fun htidy : s.graph.Tidy =>
    hspec (htidy.newModule s.graph.newModule.1).tidy (hasModule_newModule_self s.graph)
  rw [compileWith_eq]
  simp only [calls, hvalues]
  rcases result with e | ⟨⟨⟩⟩
  · refine ⟨nofun, fun e' s' hs' => ?_⟩
    cases hs'
    refine h.broken hstart fun htidy => ?_
    by_contra hall
    cases (hvalid htidy).1 fun cell hcell => by_contra fun hno => hall ⟨cell, hcell, hno⟩
  · let a : Assembly State ModuleId Slot :=
      { start kit none s with store := { (start kit none s).store with graph := g }, vars }
    have ha : s.graph.Tidy → a.store.graph.Tidy ∧ a.store.graph.HasModule a.home := fun htidy => by
      obtain ⟨-, new, happends, -⟩ := hvalid htidy
      exact ⟨happends.tidy, happends.hasModule (hasModule_newModule_self s.graph)⟩
    have hwire := h.wireAll hspares (fun cell hcell => List.mem_map_of_mem hcell) (h.graph g hstart) ha
    rw [List.nil_append] at hwire
    rcases hall : a.wireAll kit (l.resolver load) (importCells n.cells) with ⟨e | ⟨⟨⟩⟩, b⟩
    · simp only [a] at hall
      simp only [hall]
      refine ⟨nofun, fun e' s' hs' => ?_⟩
      cases hs'
      exact hwire.2 e b hall
    · simp only [a] at hall
      simp only [hall]
      refine ⟨fun m s' hs' => ?_, nofun⟩
      cases hs'
      exact hwire.1 b hall

end

/-- Only what the loader answers to the calls that are made matters to a compilation. -/
theorem compileWith_congr {load' : Load} {P : State → Prop}
    (hgraph : ∀ t g, P t → P { t with graph := g })
    (hload : ∀ url t, url ∈ l.targets n → P t → load url t = load' url t ∧ P (load url t).2) (hs : P s) :
    l.compileWith load n s = l.compileWith load' n s := by
  have hwire : ∀ (cells : List ImportCell) (a : Assembly State ModuleId Slot),
      (∀ cell ∈ cells, l.target cell ∈ l.targets n) → P a.store →
      a.wireAll kit (l.resolver load) cells = a.wireAll kit (l.resolver load') cells := by
    intro cells
    induction cells with
    | nil => exact fun _ _ _ => rfl
    | cons cell cells ih =>
        intro a hcells ha
        obtain ⟨hsame, hnext⟩ := hload (l.target cell) a.store (hcells cell (by simp)) ha
        have hfirst : a.wire kit (l.resolver load) cell = a.wire kit (l.resolver load') cell :=
          wire_congr kit hsame
        simp only [Assembly.wireAll, ← hfirst]
        rcases hanswer : load (l.target cell) a.store with ⟨e | m, t⟩
        · rw [wire_of_failed hanswer]
        · rw [hanswer] at hnext
          obtain ⟨result, g, groups, hwired, -⟩ := wire_of_loaded hanswer
          rw [hwired]
          rcases result with e | ⟨⟨⟩⟩
          · rfl
          · exact ih _ (fun other hother => hcells other (List.mem_cons_of_mem _ hother)) (hgraph t g hnext)
  obtain ⟨result, g, vars, hvalues, -⟩ := addValues_spec (valueCells n.cells) (start kit none s)
  rw [compileWith_eq, compileWith_eq, hvalues]
  rcases result with e | ⟨⟨⟩⟩
  · rfl
  · simp only
    rw [hwire _ _ (fun cell hcell => List.mem_map_of_mem hcell) (hgraph _ g (hgraph s _ hs))]

/-! ## Rows -/

/-- Imports that are wired add their rows to the table of their module, in order. -/
theorem wireAll_appends (hspares : Spares load) (cells : List ImportCell)
    {a : Assembly State ModuleId Slot} (htidy : a.store.graph.Tidy)
    (hhome : a.store.graph.HasModule a.home) :
    (a.wireAll kit (l.resolver load) cells).2.home = a.home ∧
      ∃ new, Appends a.home new a.store.graph (a.wireAll kit (l.resolver load) cells).2.store.graph ∧
        ((a.wireAll kit (l.resolver load) cells).1 = .ok () → new = cells.flatMap ImportCell.rows) := by
  induction cells generalizing a with
  | nil => exact ⟨rfl, [], htidy.appends_refl a.home, fun _ => rfl⟩
  | cons cell cells ih =>
      have hspared := hspares (l.target cell) a.store htidy a.home
      rcases hload : load (l.target cell) a.store with ⟨e | m, t⟩
      · rw [hload] at hspared
        simp only [Assembly.wireAll, wire_of_failed hload]
        exact ⟨trivial, [], hspared, by rintro ⟨⟩⟩
      · rw [hload] at hspared
        obtain ⟨result, g, groups, hwire, hspec⟩ := wire_of_loaded hload
        obtain ⟨rfl, hrows⟩ := hspec hspared.tidy (hspared.hasModule hhome)
        obtain ⟨hsame, new, hrest, hnew⟩ := ih (a := { a with store := { t with graph := g }, groups })
          hrows.tidy (hrows.hasModule (hspared.hasModule hhome))
        simp only [Assembly.wireAll, hwire]
        refine ⟨hsame, cell.rows ++ new, hspared.trans (hrows.trans hrest), fun hok => ?_⟩
        rw [hnew hok, List.flatMap_cons]

/-- A notebook that is compiled touches the table of no module that is there; the module that it is compiled
to is there afterwards, with the table of the notebook. -/
theorem compileWith_appends (l : Library) (hspares : Spares load) (n : Notebook) (hs : s.graph.Tidy) :
    (∀ m, Appends m [] s.graph (l.compileWith load n s).2.graph) ∧
      ∀ m s', l.compileWith load n s = (.ok m, s') → s'.graph.HasModule m ∧ s'.graph.rows m = n.table := by
  have hmodule := hs.newModule s.graph.newModule.1
  have hhome := hasModule_newModule_self s.graph
  obtain ⟨result, g, vars, hvalues, hspec⟩ := addValues_spec (valueCells n.cells) (start kit none s)
  obtain ⟨-, new, happends, hnew⟩ := hspec hmodule.tidy hhome
  have hfresh := fun (other : Graph Unit) (rows : List Row)
    (h : Appends s.graph.newModule.1 rows s.graph.newModule.2 other) =>
      (hmodule.trans h).of_fresh (not_hasModule_newModule s.graph)
  rw [compileWith_eq, hvalues]
  rcases result with e | ⟨⟨⟩⟩
  · exact ⟨hfresh g new happends, nofun⟩
  · let a : Assembly State ModuleId Slot :=
      { start kit none s with store := { (start kit none s).store with graph := g }, vars }
    obtain ⟨hsame, new', happends', hnew'⟩ := wireAll_appends (l := l) hspares (importCells n.cells)
      (a := a) happends.tidy (happends.hasModule hhome)
    have hall : Appends s.graph.newModule.1 (new ++ new') s.graph.newModule.2
        (a.wireAll kit (l.resolver load) (importCells n.cells)).2.store.graph :=
      happends.trans happends'
    rcases hwire : a.wireAll kit (l.resolver load) (importCells n.cells) with ⟨e | ⟨⟨⟩⟩, b⟩
    · rw [hwire] at hall
      simp only [a] at hwire
      simp only [hwire]
      exact ⟨hfresh _ _ hall, nofun⟩
    · rw [hwire] at hall hsame hnew'
      simp only [a] at hwire
      simp only [hwire]
      refine ⟨hfresh _ _ hall, fun m s' hs' => ?_⟩
      cases hs'
      have hhome' : b.home = s.graph.newModule.1 := hsame
      refine ⟨hhome' ▸ hall.hasModule hhome, ?_⟩
      rw [hhome', hall.rows hhome, hs.rows_newModule, if_pos rfl, hnew rfl, hnew' rfl]
      rfl

end Library

end CellGraph
