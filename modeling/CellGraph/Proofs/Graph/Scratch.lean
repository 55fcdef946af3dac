import CellGraph.Proofs.Graph.Frame
import CellGraph.Proofs.Same
import Mathlib.Logic.Relation

/-!
# Evaluation from scratch

The value that a variable ought to have, computed without anything kept: its rule applied to the results
of what it reads, each found by name and computed in the same way, along a path of the variables that
wait (`scratch`). There is no bound on the depth: a path that goes on visits a new variable each time.

It depends on the names, the rules and the world only, so it is the same for graphs that agree once all
that is kept has been dropped (`bare`).
-/

namespace CellGraph

variable {σ : Type}

/-- The part of a variable that decides its value. -/
def Variable.core (v : Variable σ) : Variable σ :=
  { v with observer := none, cache := none }

namespace Graph

/-! ## The definition -/

/-- The number of variables off a path. -/
def unvisited (g : Graph σ) (path : List Slot) : Nat :=
  (g.vars.toList.filter fun place => place.1 ∉ path).length

/-- A path that goes on to another variable leaves fewer off it. -/
theorem unvisited_cons_lt {g : Graph σ} {path : List Slot} {slot : Slot} {v : Variable σ}
    (hmem : slot ∉ path) (hv : g.vars.get? slot = some v) :
    g.unvisited (slot :: path) < g.unvisited path := by
  have hsplit : (g.vars.toList.filter fun place => place.1 ∉ slot :: path) =
      (g.vars.toList.filter fun place => place.1 ∉ path).filter fun place => place.1 ≠ slot := by
    rw [List.filter_filter]
    refine List.filter_congr fun place _ => ?_
    simp [List.mem_cons, not_or]
  unfold unvisited
  rw [hsplit, List.length_filter_lt_length_iff_exists]
  exact ⟨(slot, v), List.mem_filter.mpr ⟨Slots.mem_toList.mpr hv, by simpa using hmem⟩, by simp⟩

/-- There are no more variables off the empty path than there are variables. -/
theorem Sound.unvisited_nil_le {g : Graph σ} (hg : g.Sound) : g.unvisited [] ≤ g.vars.size := by
  rw [Slots.size_eq_length_toList hg.slots]
  exact List.length_filter_le _ _

/-- The result for a name of a module, given a way to evaluate variables. -/
def resolve (g : Graph σ) (eval : Slot → Except Fault Value) (read : ModuleId × String) :
    Except Fault Value :=
  match g.lookup read.1 read.2 with
  | some slot => eval slot
  | none => builtin read.2

/-- The result of a variable on a path of variables that wait for it, computed from scratch. -/
def scratch (g : Graph σ) (path : List Slot) (slot : Slot) : Except Fault Value :=
  if _ : slot ∈ path then .error (.circular (g.label slot))
  else match _ : g.vars.get? slot with
    | none => .error .deleted
    | some v => v.rule.result g.world
        (v.reads.map (g.resolve fun next => scratch g (slot :: path) next))
termination_by g.unvisited path
decreasing_by exact unvisited_cons_lt ‹_› ‹_›

/-- The value of a name in a module, computed from scratch. -/
def scratchValue (g : Graph σ) (m : ModuleId) (name : String) : Except Fault Value :=
  match g.lookup m name with
  | none => .error (.notDefined name)
  | some slot => g.scratch [] slot

/-- A result with the version that belongs to it. -/
def stampOf (g : Graph σ) (result : Except Fault Value) : Stamp :=
  { result, version := g.versionOf result }

/-- The stamps that a variable on a path ought to read. -/
def stampsAt (g : Graph σ) (path : List Slot) (slot : Slot) : List Stamp :=
  match g.vars.get? slot with
  | none => []
  | some v => v.reads.map fun read => g.stampOf (g.resolve (g.scratch (slot :: path)) read)

theorem scratch_mem {g : Graph σ} {path : List Slot} {slot : Slot} (hmem : slot ∈ path) :
    g.scratch path slot = .error (.circular (g.label slot)) := by
  rw [scratch, dif_pos hmem]

theorem scratch_dead {g : Graph σ} {path : List Slot} {slot : Slot} (hmem : slot ∉ path)
    (hdead : g.vars.get? slot = none) : g.scratch path slot = .error .deleted := by
  rw [scratch, dif_neg hmem]
  split
  · rfl
  · next hv =>
      rw [hdead] at hv
      cases hv

theorem scratch_live {g : Graph σ} {path : List Slot} {slot : Slot} {v : Variable σ}
    (hmem : slot ∉ path) (hv : g.vars.get? slot = some v) :
    g.scratch path slot =
      v.rule.result g.world (v.reads.map (g.resolve (g.scratch (slot :: path)))) := by
  rw [scratch, dif_neg hmem]
  split
  · next hdead =>
      rw [hv] at hdead
      cases hdead
  · next hw =>
      rw [hv] at hw
      cases hw
      rfl

theorem stampsAt_live {g : Graph σ} {slot : Slot} {v : Variable σ} (hv : g.vars.get? slot = some v)
    (path : List Slot) : g.stampsAt path slot =
      v.reads.map fun read => g.stampOf (g.resolve (g.scratch (slot :: path)) read) := by
  rw [stampsAt, hv]

/-- The result of a variable off its path is what its rule makes of the stamps it ought to read. -/
theorem scratch_eq_result {g : Graph σ} {path : List Slot} {slot : Slot} {v : Variable σ}
    (hmem : slot ∉ path) (hv : g.vars.get? slot = some v) :
    g.scratch path slot = v.rule.result g.world ((g.stampsAt path slot).map Stamp.result) := by
  rw [scratch_live hmem hv, stampsAt_live hv, List.map_map]
  rfl

/-! ## What it depends on -/

/-- Graphs with the same names, rules and world. -/
structure Agree (g h : Graph σ) : Prop where
  lookup : ∀ m name, g.lookup m name = h.lookup m name
  world : g.world = h.world
  vars : ∀ slot, (g.vars.get? slot).map Variable.core = (h.vars.get? slot).map Variable.core

namespace Agree

variable {g h : Graph σ}

theorem symm (hgh : g.Agree h) : h.Agree g :=
  ⟨fun m name => (hgh.lookup m name).symm, hgh.world.symm, fun slot => (hgh.vars slot).symm⟩

/-- Where one graph has a variable, the other has one with the same core. -/
theorem exists_of_get? (hgh : g.Agree h) {slot : Slot} {v : Variable σ}
    (hv : g.vars.get? slot = some v) : ∃ w, h.vars.get? slot = some w ∧ w.core = v.core := by
  have hvars := hgh.vars slot
  rw [hv, Option.map_some] at hvars
  exact Option.map_eq_some_iff.mp hvars.symm

theorem get?_eq_none (hgh : g.Agree h) {slot : Slot} (hdead : g.vars.get? slot = none) :
    h.vars.get? slot = none := by
  have hvars := hgh.vars slot
  rw [hdead, Option.map_none] at hvars
  exact Option.map_eq_none_iff.mp hvars.symm

theorem label (hgh : g.Agree h) (slot : Slot) : g.label slot = h.label slot := by
  have hname : ∀ k : Graph σ, k.label slot =
      (((k.vars.get? slot).map Variable.core).bind Variable.name).getD anonymousLabel := by
    intro k
    unfold Graph.label
    cases k.vars.get? slot <;> rfl
  rw [hname g, hname h, hgh.vars]

theorem resolve (hgh : g.Agree h) : g.resolve = h.resolve := by
  funext eval read
  unfold Graph.resolve
  rw [hgh.lookup]

theorem stampOf (hgh : g.Agree h) : g.stampOf = h.stampOf := by
  funext result
  unfold Graph.stampOf versionOf
  rw [hgh.world]

/-- Graphs that agree have the same results from scratch. -/
theorem scratch (hgh : g.Agree h) (path : List Slot) (slot : Slot) :
    g.scratch path slot = h.scratch path slot := by
  induction hn : g.unvisited path using Nat.strongRecOn generalizing path slot with
  | ind n ih =>
      by_cases hmem : slot ∈ path
      · rw [scratch_mem hmem, scratch_mem hmem, hgh.label]
      · cases hv : g.vars.get? slot with
        | none => rw [scratch_dead hmem hv, scratch_dead hmem (hgh.get?_eq_none hv)]
        | some v =>
            obtain ⟨w, hw, hcore⟩ := hgh.exists_of_get? hv
            have hrule : w.core.rule = v.core.rule := by rw [hcore]
            have hreads : w.core.reads = v.core.reads := by rw [hcore]
            have hnext : g.scratch (slot :: path) = h.scratch (slot :: path) := by
              funext next
              exact ih _ (hn ▸ unvisited_cons_lt hmem hv) _ next rfl
            rw [scratch_live hmem hv, scratch_live hmem hw, hnext, hgh.resolve, hgh.world]
            change v.core.rule.result _ (v.core.reads.map _) = w.core.rule.result _ (w.core.reads.map _)
            rw [hrule, hreads]

theorem stampsAt (hgh : g.Agree h) (path : List Slot) (slot : Slot) :
    g.stampsAt path slot = h.stampsAt path slot := by
  cases hv : g.vars.get? slot with
  | none => rw [Graph.stampsAt, hv, Graph.stampsAt, hgh.get?_eq_none hv]
  | some v =>
      obtain ⟨w, hw, hcore⟩ := hgh.exists_of_get? hv
      have hreads : w.core.reads = v.core.reads := by rw [hcore]
      have hnext : g.scratch (slot :: path) = h.scratch (slot :: path) := funext (hgh.scratch _)
      rw [stampsAt_live hv, stampsAt_live hw, hnext, hgh.resolve, hgh.stampOf]
      change v.core.reads.map _ = w.core.reads.map _
      rw [hreads]

end Agree

/-- A graph without what has been kept, counted and told. -/
def bare (g : Graph σ) : Graph σ :=
  { g with vars := g.vars.map fun _ => Variable.bare, runs := 0, log := [] }

theorem get?_bare (g : Graph σ) (slot : Slot) :
    g.bare.vars.get? slot = (g.vars.get? slot).map Variable.bare :=
  Slots.get?_map _ _ slot

/-- What a variable keeps, the count and the log are not there without what is kept. -/
theorem bare_set_cache {g : Graph σ} {slot : Slot} {v : Variable σ} (hv : g.vars.get? slot = some v)
    (cache : Option Cache) (runs : Nat) (log : List Notice) :
    ({ g with vars := g.vars.set slot { v with cache }, runs, log } : Graph σ).bare = g.bare := by
  have hmap : (g.vars.set slot { v with cache }).map (fun _ => Variable.bare) =
      g.vars.map fun _ => Variable.bare := Slots.map_set hv rfl
  simp only [bare, hmap]

/-- Graphs that are equal without what they keep have the same names, rules and world. -/
theorem agree_of_bare_eq {g h : Graph σ} (hbare : g.bare = h.bare) : g.Agree h where
  lookup m name := by
    have hlookup : g.bare.lookup m name = h.bare.lookup m name := by rw [hbare]
    exact hlookup
  world := by
    have hworld : g.bare.world = h.bare.world := by rw [hbare]
    exact hworld
  vars slot := by
    have hcore : ∀ k : Graph σ, (k.vars.get? slot).map Variable.core =
        (k.bare.vars.get? slot).map Variable.core := by
      intro k
      rw [get?_bare]
      cases k.vars.get? slot <;> rfl
    rw [hcore g, hcore h, hbare]

/-- The listing of a graph's variables without what they keep. -/
theorem toList_bare (g : Graph σ) :
    g.bare.vars.toList = g.vars.toList.map fun place => (place.1, place.2.bare) :=
  Slots.toList_map _ _

theorem unvisited_bare (g : Graph σ) (path : List Slot) :
    g.bare.unvisited path = g.unvisited path := by
  unfold unvisited
  rw [toList_bare, List.filter_map, List.length_map]
  rfl

theorem roots_bare (g : Graph σ) : g.bare.roots = g.roots := by
  unfold roots
  rw [toList_bare, List.filter_map, List.map_map]
  rfl

end Graph

end CellGraph
