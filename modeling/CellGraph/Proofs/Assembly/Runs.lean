import CellGraph.Ledger
import Mathlib.Data.List.InsertIdx

/-!
# Runs of an assembly

A run is a finite list of moves: a cell comes in, the imports that wait are wired, a wired import is
removed. The resolver may be another one each time, and both cells and imports may fail.

What has become of the imports is kept in a `Record` beside the assembly: which ones were wired, each
with the group that it got, and which of these are still present. The queue law says that nothing is
lost, doubled or moved: the imports that ever came in are those wired, in the order of wiring, and then
those that wait (`Tracked`). `Tracked.step` is the law for one move and `tracked_run` for a run.

An import that fails because its resolver refuses leaves no trace. So finalizing may be tried again
with other resolvers, and in the end the assembly is the one that a single attempt would have made
(`finalize_again`).
-/

namespace CellGraph

variable {S M V D O : Type}

/-- A group that may come of an import: it has its source, and one member for each specifier. -/
structure Group.Fits (cell : ImportCell) (group : Group V) : Prop where
  source : group.source = cell.source
  members : group.members.length = cell.specifiers.length

/-- A resolver that does as another one does, or refuses and leaves the store as it is. -/
def Resolver.Follows (resolve other : Resolver S M O) : Prop :=
  ∀ request s, resolve request s = other request s ∨ ∃ e, resolve request s = (.error e, s)

namespace Assembly

/-! ## One import -/

/-- Members that could all be made are as many as the specifiers. -/
theorem length_of_wireMembers {kit : Kit S M V D O} {home imported : M} {bindings : List Binding}
    {s s' : S} {members : List V}
    (h : wireMembers kit home imported bindings s = (.ok (), members, s')) :
    members.length = bindings.length := by
  induction bindings generalizing s members with
  | nil =>
      obtain ⟨rfl, -⟩ := Prod.mk.inj (Prod.mk.inj h).2
      rfl
  | cons b bindings ih =>
      simp only [wireMembers] at h
      split at h
      · cases h
      · next hfirst =>
          rcases hrest : wireMembers kit home imported bindings _ with ⟨result, rest, store⟩
          rw [hrest] at h
          obtain ⟨rfl, hmembers⟩ := Prod.mk.inj h
          obtain ⟨rfl, rfl⟩ := Prod.mk.inj hmembers
          simp only [List.length_cons, ih hrest]

/-- What making a group gives fits the import. -/
theorem fits_of_wireGroup {kit : Kit S M V D O} {cell : ImportCell} {home imported : M} {s s' : S}
    {group : Group V} (h : wireGroup kit cell home imported s = (.ok group, s')) :
    group.Fits cell := by
  unfold wireGroup at h
  rcases hmembers : wireMembers kit home imported cell.specifiers s with ⟨_ | ⟨⟨⟩⟩, members, store⟩
  · rw [hmembers] at h
    cases h
  · rw [hmembers] at h
    simp only at h
    split at h
    · cases h
    · obtain ⟨hgroup, -⟩ := Prod.mk.inj h
      cases hgroup
      exact ⟨rfl, length_of_wireMembers hmembers⟩

/-- Wiring an import either fails and changes no more than the store, or adds a group for it. -/
theorem wire_cases (kit : Kit S M V D O) (resolve : Resolver S M O) (cell : ImportCell)
    (a : Assembly S M V) :
    (∃ e store, a.wire kit resolve cell = (.error e, { a with store })) ∨
    ∃ group store, group.Fits cell ∧
      a.wire kit resolve cell = (.ok (), { a with store, groups := a.groups ++ [group] }) := by
  unfold wire
  simp only
  split
  · exact Or.inl ⟨_, _, rfl⟩
  · split
    · exact Or.inl ⟨_, _, rfl⟩
    · next hgroup => exact Or.inr ⟨_, _, fits_of_wireGroup hgroup, rfl⟩

/-! ## Imports in order -/

/-- The imports that wiring gets through, each with the groups that it adds. -/
def wirings (kit : Kit S M V D O) (resolve : Resolver S M O) :
    List ImportCell → Assembly S M V → List (ImportCell × Group V)
  | [], _ => []
  | cell :: cells, a =>
    match a.wire kit resolve cell with
    | (.error _, _) => []
    | (.ok (), b) =>
      (b.groups.drop a.groups.length).map (fun group => (cell, group)) ++ wirings kit resolve cells b

/-- Where the first import fails, no import is wired. -/
theorem wirings_of_error {kit : Kit S M V D O} {resolve : Resolver S M O} {cell : ImportCell}
    {a b : Assembly S M V} {e : Error} (h : a.wire kit resolve cell = (.error e, b))
    (cells : List ImportCell) : a.wirings kit resolve (cell :: cells) = [] := by
  simp [wirings, h]

/-- Where the first import is wired, it comes first with its one group. -/
theorem wirings_of_ok {kit : Kit S M V D O} {resolve : Resolver S M O} {cell : ImportCell}
    {a : Assembly S M V} {group : Group V} {store : S}
    (h : a.wire kit resolve cell = (.ok (), { a with store, groups := a.groups ++ [group] }))
    (cells : List ImportCell) :
    a.wirings kit resolve (cell :: cells) =
      (cell, group) :: wirings kit resolve cells { a with store, groups := a.groups ++ [group] } := by
  simp [wirings, h]

/-- What wiring imports in order comes to. The imports that were wired come first in the queue, each has
its group, and only then comes the import that failed, if any. -/
structure Wired (kit : Kit S M V D O) (resolve : Resolver S M O) (cells : List ImportCell)
    (a : Assembly S M V) (done : List (ImportCell × Group V)) (out : Except Error Unit × Assembly S M V) :
    Prop where
  fits : ∀ pair ∈ done, pair.2.Fits pair.1
  home : out.2.home = a.home
  vars : out.2.vars = a.vars
  groups : out.2.groups = a.groups ++ done.map Prod.snd
  queue : cells = done.map Prod.fst ++ out.2.pending
  /-- The imports that were wired can be wired alone; the next one fails after them. -/
  outcome : ∃ b, a.wireAll kit resolve (done.map Prod.fst) = (.ok (), b) ∧
    match out.1 with
    | .ok () => out.2 = b
    | .error e => ∃ failed rest store, out.2 = { b with store, pending := failed :: rest } ∧
      b.wire kit resolve failed = (.error e, { b with store })

/-- The imports that wait play no part in wiring one. -/
theorem wire_pending (kit : Kit S M V D O) (resolve : Resolver S M O) (cell : ImportCell)
    (a : Assembly S M V) (pending : List ImportCell) :
    wire kit resolve cell { a with pending } =
      ((a.wire kit resolve cell).1, { (a.wire kit resolve cell).2 with pending }) := by
  unfold wire
  simp only
  split
  · rfl
  · split <;> rfl

/-- The imports that waited play no part in wiring a list of them. -/
theorem wireAll_pending (kit : Kit S M V D O) (resolve : Resolver S M O) (cells : List ImportCell)
    (a : Assembly S M V) (pending : List ImportCell) :
    wireAll kit resolve cells { a with pending } = a.wireAll kit resolve cells := by
  induction cells generalizing a with
  | nil => rfl
  | cons cell cells ih =>
      simp only [wireAll, wire_pending]
      rcases a.wire kit resolve cell with ⟨_ | ⟨⟨⟩⟩, b⟩
      · rfl
      · exact ih b

/-- Wiring imports in order does what `Wired` says. -/
theorem wireAll_wired (kit : Kit S M V D O) (resolve : Resolver S M O) (cells : List ImportCell)
    (a : Assembly S M V) :
    Wired kit resolve cells a (a.wirings kit resolve cells) (a.wireAll kit resolve cells) := by
  induction cells generalizing a with
  | nil => exact ⟨by simp [wirings], rfl, rfl, by simp [wirings, wireAll], rfl, _, rfl, rfl⟩
  | cons cell cells ih =>
      rcases wire_cases kit resolve cell a with ⟨e, store, hwire⟩ | ⟨group, store, hfits, hwire⟩
      · -- the first import fails: nothing is wired, and all of them wait
        rw [wirings_of_error hwire]
        simp only [wireAll, hwire]
        refine ⟨by simp, rfl, rfl, by simp, rfl, { a with pending := [] }, rfl, cell, cells, store, rfl, ?_⟩
        rw [wire_pending, hwire]
      · rw [wirings_of_ok hwire]
        have hnext := ih { a with store, groups := a.groups ++ [group] }
        simp only [wireAll, hwire]
        obtain ⟨b, hdone, hout⟩ := hnext.outcome
        refine ⟨?_, hnext.home, hnext.vars, ?_, ?_, b, ?_, hout⟩
        · rintro pair (_ | ⟨_, hpair⟩)
          · exact hfits
          · exact hnext.fits pair hpair
        · rw [hnext.groups, List.map_cons, List.append_assoc, List.singleton_append]
        · rw [List.map_cons, List.cons_append, ← hnext.queue]
        · simp only [List.map_cons, wireAll, hwire]
          exact hdone

/-- A finalization that succeeds leaves nothing to wait. -/
theorem pending_of_wireAll_ok {kit : Kit S M V D O} {resolve : Resolver S M O} {cells : List ImportCell}
    {a b : Assembly S M V} (h : a.wireAll kit resolve cells = (.ok (), b)) : b.pending = [] := by
  induction cells generalizing a with
  | nil =>
      cases h
      rfl
  | cons cell cells ih =>
      simp only [wireAll] at h
      split at h
      · cases h
      · exact ih h

/-! ## Moves -/

/-- What can be done with an assembly. -/
inductive Move (S M O : Type) where
  | value (cell : ValueCell)
  | imports (cell : ImportCell)
  | finalize (resolve : Resolver S M O)
  | remove (index : Nat)

/-- What has become of the cells of a run. -/
structure Record (V : Type) where
  /-- The value cells that were registered. -/
  values : List ValueCell := []
  /-- The imports that were wired, each with its group, in the order of wiring. -/
  wired : List (ImportCell × Group V) := []
  /-- Those of them that have not been removed. -/
  present : List (ImportCell × Group V) := []

namespace Move

/-- The import that a move brings in, if any. -/
def import? : Move S M O → Option ImportCell
  | imports cell => some cell
  | _ => none

/-- The assembly after a move, whether or not the move fails. -/
def apply (kit : Kit S M V D O) (a : Assembly S M V) : Move S M O → Assembly S M V
  | value cell => (a.addValue kit cell).2
  | imports cell => a.addImport cell
  | finalize resolve => (a.finalize kit resolve).2
  | remove index => (a.removeImport kit index).2

/-- The record after a move. -/
def note (kit : Kit S M V D O) (a : Assembly S M V) (r : Record V) : Move S M O → Record V
  | value cell =>
    match a.addValue kit cell with
    | (.ok (), _) => { r with values := r.values ++ [cell] }
    | (.error _, _) => r
  | imports _ => r
  | finalize resolve =>
    let done := a.wirings kit resolve a.pending
    { r with wired := r.wired ++ done, present := r.present ++ done }
  | remove index => { r with present := r.present.eraseIdx index }

/-- The assembly and the record after a move. -/
def step (kit : Kit S M V D O) (state : Assembly S M V × Record V) (move : Move S M O) :
    Assembly S M V × Record V :=
  (move.apply kit state.1, move.note kit state.1 state.2)

/-- The assembly and the record after a run that starts from the given assembly. -/
def run (kit : Kit S M V D O) (a : Assembly S M V) (moves : List (Move S M O)) :
    Assembly S M V × Record V :=
  moves.foldl (step kit) (a, {})

end Move

/-! ## The queue law -/

/-- The record accounts for the imports that came in and for the groups there are. -/
structure Tracked (queued : List ImportCell) (state : Assembly S M V × Record V) : Prop where
  queue : queued = state.2.wired.map Prod.fst ++ state.1.pending
  fits : ∀ pair ∈ state.2.wired, pair.2.Fits pair.1
  groups : state.1.groups = state.2.present.map Prod.snd
  present : state.2.present.Sublist state.2.wired

/-- A new assembly has a record of nothing. -/
theorem tracked_start (kit : Kit S M V D O) (home : Option M) (store : S) :
    Tracked [] (start kit home store, ({} : Record V)) := by
  cases home <;> exact ⟨rfl, by simp, rfl, List.Sublist.refl _⟩

/-- A value cell changes neither the queue nor the groups. -/
theorem addValue_frame (kit : Kit S M V D O) (cell : ValueCell) (a : Assembly S M V) :
    (a.addValue kit cell).2.pending = a.pending ∧ (a.addValue kit cell).2.groups = a.groups ∧
      (a.addValue kit cell).2.home = a.home := by
  unfold addValue
  split
  · exact ⟨rfl, rfl, rfl⟩
  · simp only
    split <;> exact ⟨rfl, rfl, rfl⟩

/-- Removing an import leaves the queue alone and takes out the group at its place. -/
theorem removeImport_frame (kit : Kit S M V D O) (index : Nat) (a : Assembly S M V) :
    (a.removeImport kit index).2.pending = a.pending ∧
      (a.removeImport kit index).2.groups = a.groups.eraseIdx index := by
  unfold removeImport
  split
  · next hnone =>
      rw [List.getElem?_eq_none_iff] at hnone
      exact ⟨rfl, (List.eraseIdx_of_length_le hnone).symm⟩
  · exact ⟨rfl, rfl⟩

/-- The queue law for one move. -/
theorem Tracked.step {queued : List ImportCell} {state : Assembly S M V × Record V}
    (h : Tracked queued state) (kit : Kit S M V D O) (move : Move S M O) :
    Tracked (queued ++ move.import?.toList) (move.step kit state) := by
  obtain ⟨a, r⟩ := state
  have hqueue : queued = r.wired.map Prod.fst ++ a.pending := h.queue
  have hgroups : a.groups = r.present.map Prod.snd := h.groups
  cases move with
  | value cell =>
      obtain ⟨hpending, hsame, -⟩ := addValue_frame kit cell a
      have hnote : ∀ values, Tracked queued ((a.addValue kit cell).2, { r with values }) := fun values =>
        ⟨by rw [hpending]; exact hqueue, h.fits, by rw [hsame]; exact hgroups, h.present⟩
      simp only [Move.import?, Option.toList_none, List.append_nil, Move.step, Move.apply, Move.note]
      split
      · exact hnote _
      · exact hnote r.values
  | imports cell =>
      refine ⟨?_, h.fits, hgroups, h.present⟩
      simp only [Move.import?, Option.toList_some, Move.step, Move.apply, Move.note, addImport, hqueue,
        List.append_assoc]
  | finalize resolve =>
      have hwired := wireAll_wired kit resolve a.pending a
      simp only [Move.import?, Option.toList_none, List.append_nil, Move.step, Move.apply, Move.note]
      refine ⟨?_, ?_, ?_, h.present.append (List.Sublist.refl _)⟩
      · -- what was at the front of the queue is now at the end of the wired imports
        rw [List.map_append, List.append_assoc, finalize, ← hwired.queue]
        exact hqueue
      · intro pair hpair
        rcases List.mem_append.mp hpair with hold | hnew
        · exact h.fits pair hold
        · exact hwired.fits pair hnew
      · rw [finalize, hwired.groups, List.map_append, hgroups]
  | remove index =>
      obtain ⟨hpending, herase⟩ := removeImport_frame kit index a
      simp only [Move.import?, Option.toList_none, List.append_nil, Move.step, Move.apply, Move.note]
      refine ⟨?_, h.fits, ?_, (List.eraseIdx_sublist _ _).trans h.present⟩
      · rw [hpending]
        exact hqueue
      · rw [herase, hgroups, List.eraseIdx_map]

/-- The queue law for a run. -/
theorem tracked_run (kit : Kit S M V D O) (home : Option M) (store : S) (moves : List (Move S M O)) :
    Tracked (moves.filterMap Move.import?) (Move.run kit (start kit home store) moves) := by
  have hrun : ∀ (moves : List (Move S M O)) (queued : List ImportCell)
      (state : Assembly S M V × Record V), Tracked queued state →
      Tracked (queued ++ moves.filterMap Move.import?) (moves.foldl (Move.step kit) state) := by
    intro moves
    induction moves with
    | nil =>
        intro queued state h
        simpa using h
    | cons move moves ih =>
        intro queued state h
        have hnext := ih _ _ (h.step kit move)
        have hsplit : (move :: moves).filterMap Move.import? =
            move.import?.toList ++ moves.filterMap Move.import? := by
          cases hmove : move.import? <;> simp [hmove]
        rwa [hsplit, ← List.append_assoc]
  exact hrun moves [] _ (tracked_start kit home store)

/-! ## Trying again -/

/-- Where two resolvers answer the request of an import in the same way, they wire it in the same way. -/
theorem wire_congr (kit : Kit S M V D O) {resolve other : Resolver S M O} {cell : ImportCell}
    {a : Assembly S M V}
    (h : resolve { source := cell.source, home := a.home, observer := kit.observer } a.store =
      other { source := cell.source, home := a.home, observer := kit.observer } a.store) :
    a.wire kit resolve cell = a.wire kit other cell := by
  unfold wire
  simp only [h]

/-- An import whose resolver refuses and leaves the store as it is leaves the assembly as it is. -/
theorem wire_of_refused (kit : Kit S M V D O) {resolve : Resolver S M O} {cell : ImportCell}
    {a : Assembly S M V} {e : Error}
    (h : resolve { source := cell.source, home := a.home, observer := kit.observer } a.store =
      (.error e, a.store)) :
    a.wire kit resolve cell = (.error e, a) := by
  unfold wire
  simp only [h]

/-- Suppose one resolver wires all imports. Another one that follows it wires them all with the same
outcome, or stops at an assembly from which the first one gets there. -/
theorem wireAll_of_follows {kit : Kit S M V D O} {resolve other : Resolver S M O}
    (hfollows : resolve.Follows other) {cells : List ImportCell} {a b : Assembly S M V}
    (h : a.wireAll kit other cells = (.ok (), b)) :
    a.wireAll kit resolve cells = (.ok (), b) ∨
      ∃ e c, a.wireAll kit resolve cells = (.error e, c) ∧ c.finalize kit other = (.ok (), b) := by
  induction cells generalizing a with
  | nil => exact Or.inl h
  | cons cell cells ih =>
      rcases hfollows { source := cell.source, home := a.home, observer := kit.observer } a.store
        with hsame | ⟨e, hrefused⟩
      · -- the resolvers agree on this import
        have hwire := wire_congr kit hsame
        simp only [wireAll] at h ⊢
        rw [hwire]
        rcases hfirst : a.wire kit other cell with ⟨_ | ⟨⟨⟩⟩, next⟩
        · rw [hfirst] at h
          cases h
        · rw [hfirst] at h
          exact ih h
      · -- the import is refused: it waits, with those after it, and nothing has happened
        refine Or.inr ⟨e, { a with pending := cell :: cells }, ?_, ?_⟩
        · simp only [wireAll, wire_of_refused kit hrefused]
        · rw [finalize, wireAll_pending]
          exact h

/-- The same for the imports that wait. -/
theorem finalize_of_follows {kit : Kit S M V D O} {resolve other : Resolver S M O}
    (hfollows : resolve.Follows other) {a b : Assembly S M V}
    (h : a.finalize kit other = (.ok (), b)) :
    a.finalize kit resolve = (.ok (), b) ∨
      ∃ e c, a.finalize kit resolve = (.error e, c) ∧ c.finalize kit other = (.ok (), b) :=
  wireAll_of_follows hfollows h

/-- Suppose one resolver would wire all imports that wait. Then so it is after any attempts of resolvers
that follow it, and with the same outcome. -/
theorem finalize_after {kit : Kit S M V D O} {other : Resolver S M O} {a b : Assembly S M V}
    (h : a.finalize kit other = (.ok (), b)) (attempts : List (Resolver S M O))
    (hfollows : ∀ resolve ∈ attempts, resolve.Follows other) :
    (attempts.foldl (fun a resolve => (a.finalize kit resolve).2) a).finalize kit other =
      (.ok (), b) := by
  induction attempts generalizing a with
  | nil => exact h
  | cons resolve attempts ih =>
      rw [List.forall_mem_cons] at hfollows
      rw [List.foldl_cons]
      refine ih ?_ hfollows.2
      rcases finalize_of_follows hfollows.1 h with hall | ⟨e, c, hstopped, hrest⟩
      · have hpending : b.pending = [] := pending_of_wireAll_ok hall
        rw [hall, finalize, hpending, wireAll, ← hpending]
      · rwa [hstopped]

/-- The attempt that succeeds in the end gives what a single one would have given. -/
theorem finalize_again {kit : Kit S M V D O} {other : Resolver S M O} {a b : Assembly S M V}
    (h : a.finalize kit other = (.ok (), b)) {attempts : List (Resolver S M O)}
    (hattempts : ∀ resolve ∈ attempts, resolve.Follows other) {last : Resolver S M O}
    (hlast : last.Follows other) :
    let c := attempts.foldl (fun a resolve => (a.finalize kit resolve).2) a
    (c.finalize kit last).1 = .ok () → c.finalize kit last = (.ok (), b) := by
  intro c hok
  rcases finalize_of_follows hlast (finalize_after h attempts hattempts) with hall | ⟨e, d, hstopped, -⟩
  · exact hall
  · rw [hstopped] at hok
    cases hok

/-! ## Whole runs -/

/-- No import is lost, doubled or moved, over every run with any resolvers. The imports that ever came in
are those that were wired, in the order of wiring, and then those that wait; each of the former has got
one group, and the groups there are belong to those not removed. A finalization that succeeds leaves
nothing to wait. One that fails leaves exactly the import that failed and those after it: the ones before
it have been wired, and wiring the next one fails from there. If finalizing succeeds after attempts that
each did the same or refused without a trace, the assembly is the one that a single finalization makes. -/
theorem imports_wired_once_in_order (kit : Kit S M V D O) (home : Option M) (store : S)
    (moves : List (Move S M O)) :
    let a := (Move.run kit (start kit home store) moves).1
    let r := (Move.run kit (start kit home store) moves).2
    moves.filterMap Move.import? = r.wired.map Prod.fst ++ a.pending ∧
    (∀ pair ∈ r.wired, pair.2.Fits pair.1) ∧
    a.groups = r.present.map Prod.snd ∧ r.present.Sublist r.wired ∧
    (∀ resolve b, a.finalize kit resolve = (.ok (), b) → b.pending = []) ∧
    (∀ resolve e b, a.finalize kit resolve = (.error e, b) → ∃ failed rest c store,
      a.pending = (a.wirings kit resolve a.pending).map Prod.fst ++ failed :: rest ∧
      b = { c with store, pending := failed :: rest } ∧
      a.wireAll kit resolve ((a.wirings kit resolve a.pending).map Prod.fst) = (.ok (), c) ∧
      c.wire kit resolve failed = (.error e, { c with store })) ∧
    (∀ other : Resolver S M O, (a.finalize kit other).1 = .ok () →
      ∀ (attempts : List (Resolver S M O)) (last : Resolver S M O),
        (∀ resolve ∈ attempts, resolve.Follows other) → last.Follows other →
        let c := attempts.foldl (fun a resolve => (a.finalize kit resolve).2) a
        (c.finalize kit last).1 = .ok () → c.finalize kit last = a.finalize kit other) := by
  intro a r
  have htracked : Tracked (moves.filterMap Move.import?) (a, r) := tracked_run kit home store moves
  refine ⟨htracked.queue, htracked.fits, htracked.groups, htracked.present, ?_, ?_, ?_⟩
  · intro resolve b hok
    exact pending_of_wireAll_ok hok
  · intro resolve e b herror
    have hwired := wireAll_wired kit resolve a.pending a
    rw [show a.wireAll kit resolve a.pending = (.error e, b) from herror] at hwired
    obtain ⟨c, hdone, failed, rest, store, hb, hfailed⟩ := hwired.outcome
    refine ⟨failed, rest, c, store, ?_, hb, hdone, hfailed⟩
    have hqueue := hwired.queue
    rwa [show b = _ from hb] at hqueue
  · intro other hok attempts last hattempts hlast
    rcases hsingle : a.finalize kit other with ⟨result, b⟩
    rw [hsingle] at hok
    obtain rfl : result = .ok () := hok
    exact finalize_again hsingle hattempts hlast

/-- Three imports: the first is wired and removed while the second is refused, the third comes later. Then
the second is wired while the third is refused, and at last the third is wired, as if the two had been
wired at once. -/
theorem imports_wired_once_in_order_after_refusals :
    let kit := Ledger.kit false
    let known : List String → Resolver Ledger Nat String := fun sources request l =>
      if request.source ∈ sources then (.ok 1, l) else (.error (.resolve request.source "offline"), l)
    let cell : String → ImportCell := fun source => ⟨source, [⟨"x", "y"⟩], []⟩
    let moves : List (Move Ledger Nat String) := [.imports (cell "a"), .imports (cell "b"),
      .finalize (known ["a"]), .remove 0, .imports (cell "c")]
    let a := (Move.run kit (start kit none {}) moves).1
    let wired := (Move.run kit (start kit none {}) moves).2.wired
    wired.map Prod.fst = [cell "a"] ∧ [cell "a", cell "b", cell "c"] = wired.map Prod.fst ++ a.pending ∧
      (known ["b"]).Follows (known ["b", "c"]) ∧
      (a.finalize kit (known ["b", "c"])).1 = .ok () ∧
      (a.finalize kit (known ["b"])).2.finalize kit (known ["b", "c"]) =
        a.finalize kit (known ["b", "c"]) := by
  intro kit known cell moves a wired
  obtain ⟨hqueue, -, -, -, -, -, hagain⟩ := imports_wired_once_in_order kit none {} moves
  have hself : (known ["b", "c"]).Follows (known ["b", "c"]) := fun request l => Or.inl rfl
  have hless : (known ["b"]).Follows (known ["b", "c"]) := by
    intro request l
    by_cases hb : request.source = "b"
    · exact Or.inl (by simp [known, hb])
    · exact Or.inr ⟨.resolve request.source "offline", by simp [known, hb]⟩
  have hok : (a.finalize kit (known ["b", "c"])).1 = .ok () := by decide +kernel
  refine ⟨by decide +kernel, hqueue, hless, hok, ?_⟩
  exact hagain (known ["b", "c"]) hok [known ["b"]] (known ["b", "c"]) (by simpa using hless) hself
    (by decide +kernel)

end Assembly

end CellGraph
