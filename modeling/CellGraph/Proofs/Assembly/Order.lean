import CellGraph.Proofs.Assembly.Ownership

/-!
# Value cells before imports

In a batch of cells it does not matter where the imports stand among the value cells: they wait until
all value cells are registered. `compile_split` takes the compilation of a batch apart into these two
phases, and a batch compiles as the batch with its value cells first.

When the imports are resolved is seen by a resolver that keeps a record of its own beside the state of the
platform (`Resolver.recording`). The platform does not see the record (`Kit.beside`), so that nothing else
changes, and each request finds the state in which the batch cut off before that import ends.
-/

namespace CellGraph

variable {S M V D O L : Type}

/-- The value cells of a batch, in order. -/
def valueCells (cells : List Descriptor) : List ValueCell :=
  cells.filterMap fun
    | .value cell => some cell
    | .imports _ => none

/-- The imports of a batch, in order. -/
def importCells (cells : List Descriptor) : List ImportCell :=
  cells.filterMap fun
    | .value _ => none
    | .imports cell => some cell

/-- The batch of the given value cells, followed by the given imports. -/
def batch (values : List ValueCell) (imports : List ImportCell) : List Descriptor :=
  values.map .value ++ imports.map .imports

theorem valueCells_batch (values : List ValueCell) (imports : List ImportCell) :
    valueCells (batch values imports) = values := by
  simp [valueCells, batch, List.filterMap_map]

theorem importCells_batch (values : List ValueCell) (imports : List ImportCell) :
    importCells (batch values imports) = imports := by
  simp [importCells, batch, List.filterMap_map]

namespace Assembly

/-! ## Two phases -/

/-- Registers value cells in order, up to the first that fails. -/
def addValues (kit : Kit S M V D O) :
    List ValueCell → Assembly S M V → Except Error Unit × Assembly S M V
  | [], a => (.ok (), a)
  | cell :: cells, a =>
    match a.addValue kit cell with
    | (.error e, b) => (.error e, b)
    | (.ok (), b) => addValues kit cells b

/-- The imports that wait play no part in registering a value cell. -/
theorem addValue_pending (kit : Kit S M V D O) (cell : ValueCell) (a : Assembly S M V)
    (pending : List ImportCell) :
    addValue kit cell { a with pending } =
      ((a.addValue kit cell).1, { (a.addValue kit cell).2 with pending }) := by
  unfold addValue
  simp only
  split
  · rfl
  · split <;> rfl

/-- The imports that wait play no part in registering value cells. -/
theorem addValues_pending (kit : Kit S M V D O) (cells : List ValueCell) (a : Assembly S M V)
    (pending : List ImportCell) :
    addValues kit cells { a with pending } =
      ((a.addValues kit cells).1, { (a.addValues kit cells).2 with pending }) := by
  induction cells generalizing a with
  | nil => rfl
  | cons cell cells ih =>
      simp only [addValues, addValue_pending]
      rcases a.addValue kit cell with ⟨_ | ⟨⟨⟩⟩, b⟩
      · rfl
      · exact ih b

/-- Taking in a batch registers its value cells; if none of them fails, all its imports wait. -/
theorem addAll_split (kit : Kit S M V D O) (cells : List Descriptor) (a : Assembly S M V) :
    match a.addValues kit (valueCells cells) with
    | (.error e, b) => ∃ pending, a.addAll kit cells = (.error e, { b with pending })
    | (.ok (), b) =>
      a.addAll kit cells = (.ok (), { b with pending := a.pending ++ importCells cells }) := by
  induction cells generalizing a with
  | nil => simp [valueCells, importCells, addValues, addAll]
  | cons cell cells ih =>
      cases cell with
      | value cell =>
          have hvalues : valueCells (.value cell :: cells) = cell :: valueCells cells := rfl
          have himports : importCells (.value cell :: cells) = importCells cells := rfl
          have hpending := (addValue_frame kit cell a).1
          rw [hvalues, himports, addValues]
          rcases hfirst : a.addValue kit cell with ⟨e | ⟨⟨⟩⟩, b⟩
          · simp only [addAll, add, hfirst]
            exact ⟨b.pending, rfl⟩
          · rw [hfirst] at hpending
            simp only [addAll, add, hfirst]
            rw [← hpending]
            exact ih b
      | imports cell =>
          have hvalues : valueCells (.imports cell :: cells) = valueCells cells := rfl
          have himports : importCells (.imports cell :: cells) = cell :: importCells cells := rfl
          have hnext := ih (a.addImport cell)
          rw [addImport, addValues_pending] at hnext
          rw [hvalues, himports]
          simp only [addAll, add]
          rcases hall : a.addValues kit (valueCells cells) with ⟨e | ⟨⟨⟩⟩, b⟩
          · rw [hall] at hnext
            exact hnext
          · rw [hall] at hnext
            simp only [List.append_assoc, List.singleton_append] at hnext
            exact hnext

/-- A batch compiles in two phases. -/
theorem compile_split (kit : Kit S M V D O) (resolve : Resolver S M O) (cells : List Descriptor)
    (home : Option M) (store : S) :
    match (start kit home store).addValues kit (valueCells cells) with
    | (.error e, b) => ∃ pending, compile kit resolve cells home store = (.error e, { b with pending })
    | (.ok (), b) => compile kit resolve cells home store = b.wireAll kit resolve (importCells cells) := by
  have hsplit := addAll_split kit cells (start kit home store)
  unfold compile
  rcases hall : (start kit home store).addValues kit (valueCells cells) with ⟨e | ⟨⟨⟩⟩, b⟩
  · rw [hall] at hsplit
    obtain ⟨pending, hadd⟩ := hsplit
    exact ⟨pending, by rw [hadd]⟩
  · rw [hall] at hsplit
    have hnothing : (start kit home store).pending = [] := by cases home <;> rfl
    simp only [hnothing, List.nil_append] at hsplit
    simp only [hsplit, finalize, wireAll_pending]

section Outcomes

variable {kit : Kit S M V D O} (resolve : Resolver S M O) {cells : List Descriptor} {home : Option M}
  {store : S} {b : Assembly S M V}

/-- Where a value cell fails, no import is wired, wherever the imports stand. -/
theorem compile_batch_of_values_error {e : Error}
    (hvalues : (start kit home store).addValues kit (valueCells cells) = (.error e, b))
    (imports : List ImportCell) : ∃ pending,
      compile kit resolve (batch (valueCells cells) imports) home store =
        (.error e, { b with pending }) := by
  have hsplit := compile_split kit resolve (batch (valueCells cells) imports) home store
  rwa [valueCells_batch, hvalues] at hsplit

/-- Otherwise the imports are wired once all value cells are in place. -/
theorem compile_batch_of_values_ok
    (hvalues : (start kit home store).addValues kit (valueCells cells) = (.ok (), b))
    (imports : List ImportCell) :
    compile kit resolve (batch (valueCells cells) imports) home store =
      b.wireAll kit resolve imports := by
  have hsplit := compile_split kit resolve (batch (valueCells cells) imports) home store
  rwa [valueCells_batch, importCells_batch, hvalues] at hsplit

end Outcomes

/-- With the value cells first, a batch compiles with the same result to the same state, up to the imports
that wait after a failure. -/
theorem compile_batch (kit : Kit S M V D O) (resolve : Resolver S M O) (cells : List Descriptor)
    (home : Option M) (store : S) :
    let sorted := compile kit resolve (batch (valueCells cells) (importCells cells)) home store
    let out := compile kit resolve cells home store
    sorted.1 = out.1 ∧ { sorted.2 with pending := [] } = { out.2 with pending := [] } ∧
      (out.1 = .ok () → sorted = out) := by
  intro sorted out
  have hout := compile_split kit resolve cells home store
  rcases hvalues : (start kit home store).addValues kit (valueCells cells) with ⟨e | ⟨⟨⟩⟩, b⟩
  · rw [hvalues] at hout
    obtain ⟨pending, hout⟩ := hout
    obtain ⟨pending', hsorted⟩ := compile_batch_of_values_error resolve hvalues (importCells cells)
    simp only [sorted, out, hsorted, hout]
    exact ⟨trivial, trivial, fun hok => nomatch hok⟩
  · rw [hvalues] at hout
    have hsame : sorted = out :=
      (compile_batch_of_values_ok resolve hvalues (importCells cells)).trans hout.symm
    rw [hsame]
    exact ⟨rfl, rfl, fun _ => rfl⟩

/-! ## A record beside the state -/

/-- An assembly with something beside the state of its platform. -/
def beside (a : Assembly S M V) (x : L) : Assembly (S × L) M V where
  store := (a.store, x)
  home := a.home
  vars := a.vars
  groups := a.groups
  pending := a.pending

end Assembly

/-- A kit over a state with something beside it that the kit does not see. -/
def Kit.beside (kit : Kit S M V D O) : Kit (S × L) M V D O where
  newModule s := ((kit.newModule s.1).1, (kit.newModule s.1).2, s.2)
  newVariable m observer s :=
    ((kit.newVariable m observer s.1).1, (kit.newVariable m observer s.1).2, s.2)
  define v name inputs definition s :=
    ((kit.define v name inputs definition s.1).1, (kit.define v name inputs definition s.1).2, s.2)
  importing v name newName source s :=
    ((kit.importing v name newName source s.1).1, (kit.importing v name newName source s.1).2, s.2)
  derive m injections source s :=
    ((kit.derive m injections source s.1).1, (kit.derive m injections source s.1).2, s.2)
  delete v s := (kit.delete v s.1, s.2)
  constant := kit.constant
  compile cell m s := ((kit.compile cell m s.1).1, (kit.compile cell m s.1).2, s.2)
  observer := kit.observer
  format := kit.format

/-- A resolver that writes down each request, with the state in which it comes, and then does as the
given one does. -/
def Resolver.recording (resolve : Resolver S M O) : Resolver (S × List (Request M O × S)) M O :=
  fun request s => ((resolve request s.1).1, (resolve request s.1).2, s.2 ++ [(request, s.1)])

namespace Assembly

theorem start_beside (kit : Kit S M V D O) (home : Option M) (store : S) (x : L) :
    start kit.beside home (store, x) = (start kit home store).beside x := by
  cases home <;> rfl

theorem addValue_beside (kit : Kit S M V D O) (cell : ValueCell) (a : Assembly S M V) (x : L) :
    (a.beside x).addValue kit.beside cell =
      ((a.addValue kit cell).1, (a.addValue kit cell).2.beside x) := by
  unfold addValue
  simp only [Kit.beside, beside]
  rcases kit.compile cell a.home a.store with ⟨e | definition, s⟩
  · rfl
  · simp only
    rcases kit.define _ cell.name cell.references definition _ with ⟨fault | _, s⟩ <;> rfl

theorem addAll_beside (kit : Kit S M V D O) (cells : List Descriptor) (a : Assembly S M V) (x : L) :
    (a.beside x).addAll kit.beside cells = ((a.addAll kit cells).1, (a.addAll kit cells).2.beside x) := by
  induction cells generalizing a with
  | nil => rfl
  | cons cell cells ih =>
      cases cell with
      | value cell =>
          simp only [addAll, add, addValue_beside]
          rcases a.addValue kit cell with ⟨e | ⟨⟨⟩⟩, b⟩
          · rfl
          · exact ih b
      | imports cell => exact ih (a.addImport cell)

theorem wireMembers_beside (kit : Kit S M V D O) (home imported : M) (bindings : List Binding) (s : S)
    (x : L) :
    wireMembers kit.beside home imported bindings (s, x) =
      ((wireMembers kit home imported bindings s).1, (wireMembers kit home imported bindings s).2.1,
        (wireMembers kit home imported bindings s).2.2, x) := by
  induction bindings generalizing s with
  | nil => rfl
  | cons b bindings ih =>
      simp only [wireMembers, Kit.beside]
      rcases kit.importing _ b.name b.newName imported _ with ⟨fault | ⟨⟨⟩⟩, s₁⟩
      · rfl
      · have hrest := ih s₁
        simp only [Kit.beside] at hrest
        simp only [hrest]

theorem deleteAll_beside (kit : Kit S M V D O) (vars : List V) (s : S × L) :
    deleteAll kit.beside vars s = (deleteAll kit vars s.1, s.2) := by
  induction vars generalizing s with
  | nil => rfl
  | cons v vars ih => exact ih (kit.delete v s.1, s.2)

theorem wireGroup_beside (kit : Kit S M V D O) (cell : ImportCell) (home imported : M) (s : S) (x : L) :
    wireGroup kit.beside cell home imported (s, x) =
      ((wireGroup kit cell home imported s).1, (wireGroup kit cell home imported s).2, x) := by
  unfold wireGroup
  rw [wireMembers_beside]
  rcases wireMembers kit home imported cell.specifiers s with ⟨fault | ⟨⟨⟩⟩, members, s₁⟩
  · simp only [deleteAll_beside]
  · simp only [deleteAll_beside]
    simp only [Kit.beside]
    rcases kit.define _ none [] (kit.constant (kit.format cell)) _ with ⟨fault | ⟨⟨⟩⟩, s₂⟩ <;> rfl

/-- The request that an import makes. -/
def request (kit : Kit S M V D O) (home : M) (cell : ImportCell) : Request M O :=
  { source := cell.source, home, observer := kit.observer }

/-- Wiring an import makes one request, in the state that it starts from. -/
theorem wire_recording (kit : Kit S M V D O) (resolve : Resolver S M O) (cell : ImportCell)
    (a : Assembly S M V) (log : List (Request M O × S)) :
    (a.beside log).wire kit.beside resolve.recording cell =
      ((a.wire kit resolve cell).1,
        (a.wire kit resolve cell).2.beside (log ++ [(request kit a.home cell, a.store)])) := by
  unfold wire
  have hobserver : (kit.beside : Kit (S × List (Request M O × S)) M V D O).observer = kit.observer := rfl
  have hderive : ∀ (m m' : M) (injections : List Binding) (s : S) (x : List (Request M O × S)),
      kit.beside.derive m injections m' (s, x) =
        ((kit.derive m injections m' s).1, (kit.derive m injections m' s).2, x) := fun _ _ _ _ _ => rfl
  simp only [Resolver.recording, beside, request, hobserver]
  rcases resolve _ a.store with ⟨e | imported, s₁⟩
  · rfl
  · by_cases hinjections : cell.injections = []
    · simp only [hinjections, if_true, wireGroup_beside]
      rcases wireGroup kit cell a.home imported s₁ with ⟨fault | group, s₂⟩ <;> rfl
    · simp only [hinjections, if_false, hderive, wireGroup_beside]
      rcases wireGroup kit cell a.home _ _ with ⟨fault | group, s₂⟩ <;> rfl

/-- The requests of imports that are wired in order, each with the state in which it comes. -/
def requests (kit : Kit S M V D O) (resolve : Resolver S M O) :
    List ImportCell → Assembly S M V → List (Request M O × S)
  | [], _ => []
  | cell :: cells, a =>
    (request kit a.home cell, a.store) ::
      match a.wire kit resolve cell with
      | (.error _, _) => []
      | (.ok (), b) => requests kit resolve cells b

theorem wireAll_recording (kit : Kit S M V D O) (resolve : Resolver S M O) (cells : List ImportCell)
    (a : Assembly S M V) (log : List (Request M O × S)) :
    (a.beside log).wireAll kit.beside resolve.recording cells =
      ((a.wireAll kit resolve cells).1,
        (a.wireAll kit resolve cells).2.beside (log ++ a.requests kit resolve cells)) := by
  induction cells generalizing a log with
  | nil =>
      rw [requests, List.append_nil]
      rfl
  | cons cell cells ih =>
      simp only [wireAll, requests, wire_recording]
      rcases a.wire kit resolve cell with ⟨e | ⟨⟨⟩⟩, b⟩
      · rfl
      · simp only [ih b, List.append_assoc, List.singleton_append]

/-- Each import makes its request when those before it have been wired. -/
theorem requests_spec {kit : Kit S M V D O} {resolve : Resolver S M O} {cells : List ImportCell}
    {a : Assembly S M V} {i : Nat} {asked : Request M O} {s : S}
    (h : (a.requests kit resolve cells)[i]? = some (asked, s)) :
    ∃ cell b, cells[i]? = some cell ∧ asked = request kit a.home cell ∧
      a.wireAll kit resolve (cells.take i) = (.ok (), b) ∧ s = b.store := by
  induction cells generalizing a i with
  | nil => simp [requests] at h
  | cons cell cells ih =>
      cases i with
      | zero =>
          simp only [requests, List.getElem?_cons_zero, Option.some.injEq, Prod.mk.injEq] at h
          obtain ⟨rfl, rfl⟩ := h
          exact ⟨cell, { a with pending := [] }, rfl, rfl, rfl, rfl⟩
      | succ i =>
          rcases wire_cases kit resolve cell a with ⟨e, store, hwire⟩ | ⟨group, store, -, hwire⟩
          · simp [requests, hwire] at h
          · simp only [requests, hwire, List.getElem?_cons_succ] at h
            obtain ⟨next, b, hnext, hasked, hdone, hs⟩ := ih h
            refine ⟨next, b, hnext, hasked, ?_, hs⟩
            simp only [List.take_succ_cons, wireAll, hwire, hdone]

/-- As many requests are made as there are imports to wire, up to the first that fails. -/
theorem length_requests (kit : Kit S M V D O) (resolve : Resolver S M O) (cells : List ImportCell)
    (a : Assembly S M V) :
    a.groups.length + (a.requests kit resolve cells).length =
      min (a.groups.length + cells.length) ((a.wireAll kit resolve cells).2.groups.length + 1) := by
  induction cells generalizing a with
  | nil => simp [requests, wireAll]
  | cons cell cells ih =>
      rcases wire_cases kit resolve cell a with ⟨e, store, hwire⟩ | ⟨group, store, -, hwire⟩
      · simp only [requests, wireAll, hwire, List.length_cons, List.length_nil]
        omega
      · have hnext := ih { a with store, groups := a.groups ++ [group] }
        simp only [List.length_append, List.length_singleton] at hnext
        simp only [requests, wireAll, hwire, List.length_cons]
        omega

/-- The imports that wait play no part in the requests. -/
theorem requests_pending (kit : Kit S M V D O) (resolve : Resolver S M O) (cells : List ImportCell)
    (a : Assembly S M V) (pending : List ImportCell) :
    requests kit resolve cells { a with pending } = a.requests kit resolve cells := by
  induction cells generalizing a with
  | nil => rfl
  | cons cell cells ih =>
      simp only [requests, wire_pending]
      rcases a.wire kit resolve cell with ⟨e | ⟨⟨⟩⟩, b⟩
      · rfl
      · simp only [ih b]

/-- Recording changes nothing but the record. The record is empty if a value cell fails, and otherwise has
the requests of all imports from the state with all value cells. -/
theorem compile_recording (kit : Kit S M V D O) (resolve : Resolver S M O) (cells : List Descriptor)
    (home : Option M) (store : S) :
    compile kit.beside resolve.recording cells home (store, []) =
      ((compile kit resolve cells home store).1, (compile kit resolve cells home store).2.beside
        (match (start kit home store).addValues kit (valueCells cells) with
        | (.error _, _) => []
        | (.ok (), b) => b.requests kit resolve (importCells cells))) := by
  have hsplit := addAll_split kit cells (start kit home store)
  unfold compile
  rw [start_beside, addAll_beside]
  rcases hall : (start kit home store).addValues kit (valueCells cells) with ⟨e | ⟨⟨⟩⟩, b⟩
  · rw [hall] at hsplit
    obtain ⟨pending, hadd⟩ := hsplit
    rw [hadd]
  · rw [hall] at hsplit
    have hnothing : (start kit home store).pending = [] := by cases home <;> rfl
    simp only [hnothing, List.nil_append] at hsplit
    simp only [hsplit, finalize]
    exact (wireAll_recording kit resolve (importCells cells) _ []).trans
      (by rw [List.nil_append, requests_pending])

/-- Value cells change neither the module nor the groups. -/
theorem addValues_frame (kit : Kit S M V D O) (cells : List ValueCell) (a : Assembly S M V) :
    (a.addValues kit cells).2.groups = a.groups ∧ (a.addValues kit cells).2.home = a.home := by
  induction cells generalizing a with
  | nil => exact ⟨rfl, rfl⟩
  | cons cell cells ih =>
      obtain ⟨-, hgroups, hhome⟩ := addValue_frame kit cell a
      rw [addValues]
      rcases hfirst : a.addValue kit cell with ⟨e | ⟨⟨⟩⟩, b⟩
      · rw [hfirst] at hgroups hhome
        exact ⟨hgroups, hhome⟩
      · rw [hfirst] at hgroups hhome
        exact ⟨(ih b).1.trans hgroups, (ih b).2.trans hhome⟩

/-! ## Nodes of a batch -/

section

variable {kit : Kit S M V D O} {home : M} {T : kit.Nodes home} {base : V → Option (Role M D)}
  {values : List ValueCell} {imports : List ImportCell} {a b : Assembly S M V}

theorem Holds.addValues (h : Holds kit T base values imports a)
    (hcompile : ∀ cell, T.Keeps fun s => (kit.compile cell home s).2) {cells : List ValueCell}
    (hadd : a.addValues kit cells = (.ok (), b)) : Holds kit T base (values ++ cells) imports b := by
  induction cells generalizing a values with
  | nil =>
      cases hadd
      rw [List.append_nil]
      exact h
  | cons cell cells ih =>
      have hfirst := h.addValue hcompile cell
      rw [Assembly.addValues] at hadd
      rcases hvalue : a.addValue kit cell with ⟨e | ⟨⟨⟩⟩, c⟩
      · rw [hvalue] at hadd
        cases hadd
      · rw [hvalue] at hadd hfirst
        rw [← List.singleton_append, ← List.append_assoc]
        exact ih hfirst hadd

/-- Imports that are all wired have their nodes. -/
theorem Holds.wireAll_ok (h : Holds kit T base values imports a) {resolve : Resolver S M O}
    (hresolve : T.Spared resolve) {cells : List ImportCell}
    (hwire : a.wireAll kit resolve cells = (.ok (), b)) :
    Holds kit T base values (imports ++ cells) b := by
  have hqueue := (wireAll_wired kit resolve cells a).queue
  have hall := h.wireAll hresolve cells
  rw [hwire] at hqueue hall
  rw [pending_of_wireAll_ok hwire, List.append_nil] at hqueue
  rwa [← hqueue] at hall

end

/-! ## Whole batches -/

/-- It does not matter where in a batch its imports stand. With the value cells first, the batch compiles
with the same result to the same state. Recording the requests for imports changes neither. The i-th
request is that of the i-th import, and comes in the state in which the batch of all value cells and of
the imports before it ends; so whatever nodes a module has on the platform, those of the value cells and
of the imports before are there, and no others. If a value cell fails, no request is made; otherwise one
for each import, up to the first import that fails. -/
theorem value_cells_come_first (kit : Kit S M V D O) (resolve : Resolver S M O) (cells : List Descriptor)
    (home : Option M) (store : S) :
    let values := valueCells cells
    let imports := importCells cells
    let out := compile kit resolve cells home store
    let sorted := compile kit resolve (batch values imports) home store
    let recorded := compile kit.beside resolve.recording cells home (store, [])
    let log := recorded.2.store.2
    (sorted.1 = out.1 ∧ { sorted.2 with pending := [] } = { out.2 with pending := [] } ∧
      (out.1 = .ok () → sorted = out)) ∧
    (recorded.1 = out.1 ∧ recorded.2.store.1 = out.2.store) ∧
    (∀ i asked s, log[i]? = some (asked, s) → ∃ cell b, imports[i]? = some cell ∧
      asked = request kit (start kit home store).home cell ∧
      compile kit resolve (batch values (imports.take i)) home store = (.ok (), b) ∧ s = b.store ∧
      ∀ T : kit.Nodes (start kit home store).home, T.valid (start kit home store).store →
        (∀ cell, T.Keeps fun s => (kit.compile cell (start kit home store).home s).2) →
        T.Spared resolve →
        Holds kit T (T.role (start kit home store).store) values (imports.take i) b) ∧
    (∀ e, (compile kit resolve (batch values []) home store).1 = .error e →
      out.1 = .error e ∧ log = []) ∧
    ((compile kit resolve (batch values []) home store).1 = .ok () →
      log.length = min imports.length (out.2.groups.length + 1)) := by
  intro values imports out sorted recorded log
  have hrecorded : recorded = _ := compile_recording kit resolve cells home store
  have hstore : recorded.1 = out.1 ∧ recorded.2.store.1 = out.2.store := by
    rw [hrecorded]
    exact ⟨rfl, rfl⟩
  refine ⟨compile_batch kit resolve cells home store, hstore, ?_⟩
  have hout := compile_split kit resolve cells home store
  have hframe := addValues_frame kit (valueCells cells) (start kit home store)
  rcases hvalues : (start kit home store).addValues kit (valueCells cells) with ⟨e | ⟨⟨⟩⟩, b⟩
  · -- a value cell fails: the batch stops there, and no import is resolved
    obtain ⟨pending, halone⟩ := compile_batch_of_values_error resolve hvalues []
    simp only [hvalues] at hrecorded
    rw [hvalues] at hout
    obtain ⟨pending', hout⟩ := hout
    have hlog : log = [] := congrArg (fun r => r.2.store.2) hrecorded
    refine ⟨fun i asked s hasked => ?_, fun e' herror => ?_, fun hok => ?_⟩
    · rw [hlog] at hasked
      cases hasked
    · rw [halone] at herror
      cases herror
      exact ⟨congrArg Prod.fst hout, hlog⟩
    · rw [halone] at hok
      cases hok
  · -- all value cells are in place, and the imports are wired from there
    have hbatch := compile_batch_of_values_ok resolve hvalues
    simp only [hvalues] at hrecorded
    rw [hvalues] at hout hframe
    have hlog : log = b.requests kit resolve imports := congrArg (fun r => r.2.store.2) hrecorded
    refine ⟨fun i asked s hasked => ?_, fun e herror => ?_, fun _ => ?_⟩
    · rw [hlog] at hasked
      obtain ⟨cell, c, hcell, hrequest, hdone, hs⟩ := requests_spec hasked
      rw [show b.home = _ from hframe.2] at hrequest
      refine ⟨cell, c, hcell, hrequest, (hbatch (imports.take i)).trans hdone, hs, ?_⟩
      intro T hvalid hcompile hresolve
      have hheld := (holds_start kit home store T hvalid).addValues hcompile hvalues
      exact hheld.wireAll_ok hresolve hdone
    · rw [hbatch []] at herror
      cases herror
    · have hlength := length_requests kit resolve imports b
      have hnothing : b.groups = [] := by
        rw [show b.groups = _ from hframe.1]
        cases home <;> rfl
      rw [hlog]
      simp only [out, hout]
      simpa [hnothing] using hlength

/-- Two imports among two value cells of a graph, one of which shares its name with an import. When the
second import is resolved, both value cells and the two nodes of the first import are there. -/
theorem value_cells_come_first_interleaved :
    let kit : Kit (Graph Unit) ModuleId Slot (Body Unit) String :=
      { Graph.platform with
        compile := fun cell _ g => (.ok (.constant (.data (.string cell.code))), g) }
    let resolve : Resolver (Graph Unit) ModuleId String := fun _ g => (.ok g.newModule.1, g.newModule.2)
    let x : ValueCell := ⟨some "x", [], "1", none⟩
    let y : ValueCell := ⟨some "y", ["x"], "2", none⟩
    let p : ImportCell := ⟨"p", [⟨"a", "x"⟩], []⟩
    let q : ImportCell := ⟨"q", [⟨"b", "b"⟩], [⟨"y", "z"⟩]⟩
    let cells : List Descriptor := [.imports p, .value x, .imports q, .value y]
    let empty : Graph Unit := { world := { host := () } }
    let log := (compile kit.beside resolve.recording cells none (empty, [])).2.store.2
    (compile kit resolve (batch [x, y] []) none empty).1 = .ok () ∧
      log.length = min 2 ((compile kit resolve cells none empty).2.groups.length + 1) ∧
      ∃ asked b, log[1]? = some (asked, b.store) ∧ asked = request kit ⟨0⟩ q ∧
        b.store.rows ⟨0⟩ = [⟨some "x", [], none⟩, ⟨some "y", ["x"], none⟩, ⟨some "x", [], some "a"⟩,
          ⟨none, [], none⟩] ∧
        Holds kit (Graph.nodes ⟨0⟩) (fun _ => none) [x, y] [p] b := by
  intro kit resolve x y p q cells empty log
  obtain ⟨-, -, hasked, -, hlength⟩ := value_cells_come_first kit resolve cells none empty
  have hvalues : (compile kit resolve (batch [x, y] []) none empty).1 = .ok () := by decide +kernel
  have hrows : (log[1]?.map fun entry => entry.2.rows ⟨0⟩) = some [⟨some "x", [], none⟩,
      ⟨some "y", ["x"], none⟩, ⟨some "x", [], some "a"⟩, ⟨none, [], none⟩] := by decide +kernel
  obtain ⟨⟨asked, s⟩, hentry⟩ : ∃ entry, log[1]? = some entry :=
    Option.isSome_iff_exists.mp (by decide +kernel)
  obtain ⟨cell, b, hcell, hrequest, -, rfl, hholds⟩ := hasked 1 asked s hentry
  obtain rfl : q = cell := Option.some.inj hcell
  rw [hentry, Option.map_some, Option.some.injEq] at hrows
  refine ⟨hvalues, hlength hvalues, asked, b, hentry, hrequest, hrows, ?_⟩
  refine hholds (Graph.nodes ⟨0⟩) ?_ (fun _ g hg => ⟨hg, rfl⟩) ?_
  · exact ⟨(Graph.sound_start _ _).newModule, Graph.hasModule_newModule_self _⟩
  · exact fun request _ g hg => ⟨⟨hg.1.newModule, Graph.hasModule_newModule hg.2⟩, rfl⟩

end Assembly

end CellGraph
