import CellGraph.Proofs.Graph.Visits

/-!
# Settling

Settling evaluates the roots, pass after pass, until a pass runs nothing. Where every body is a function
of its inputs, all passes compute with the same names and rules, so what matters is whether the variables
that are visited ought to read the same on each path on which the roots visit them (`Steady`). If so, the
first pass brings everything up to date and the second one runs nothing. If not, some variable is run
again in each pass, for ever.

Without a cycle below the roots a graph is steady, since nothing then depends on the path
(`steady_of_acyclic`). With one it may not be.
-/

namespace CellGraph.Graph

variable {σ : Type}

/-- Settling visits the variable on the path. -/
def RootVisit (g : Graph σ) (path : List Slot) (slot : Slot) : Prop :=
  ∃ root ∈ g.roots, g.Meets [] root path slot

/-- On all paths on which settling visits a variable, it ought to read the same. -/
def Steady (g : Graph σ) : Prop :=
  ∀ path path' slot, g.RootVisit path slot → g.RootVisit path' slot →
    Stamp.sameList (g.stampsAt path slot) (g.stampsAt path' slot) = true

/-- The visits of settling do not depend on what is kept. -/
theorem RootVisit.of_bare_eq {g h : Graph σ} (hbare : h.bare = g.bare) {path : List Slot} {slot : Slot}
    (hvisit : g.RootVisit path slot) : h.RootVisit path slot := by
  obtain ⟨root, hroot, hmeets⟩ := hvisit
  refine ⟨root, ?_, (agree_of_bare_eq hbare.symm).meets hmeets⟩
  rwa [← roots_bare, hbare, roots_bare]

/-! ## Passes -/

/-- A pass changes nothing but what is kept, counted and told. -/
theorem Ready.pass {g : Graph σ} (hg : g.Ready) : g.pass.Ready ∧ g.pass.bare = g.bare := by
  refine evaluateAll_invariant (P := fun h => h.Ready ∧ h.bare = g.bare) ?_ g.roots ⟨hg, rfl⟩
  rintro h depth path slot ⟨hh, hbare⟩
  obtain ⟨hready, hbare'⟩ := hh.evaluateWithin depth path slot
  exact ⟨hready, hbare'.trans hbare⟩

/-- Evaluations that change the graph have counted a run. -/
theorem evaluateAll_counted (slots : List Slot) (g : Graph σ) : g.Counted (g.evaluateAll slots) := by
  refine evaluateAll_invariant (P := g.Counted) ?_ slots (counted_refl g)
  intro h depth path slot hh
  exact hh.trans (evaluateWithin_counted depth path slot h)

/-- Evaluations leave the graph as it is exactly where each of them does. -/
theorem evaluateAll_eq_iff (slots : List Slot) (g : Graph σ) :
    g.evaluateAll slots = g ↔ ∀ slot ∈ slots, (g.evaluate slot).2 = g := by
  induction slots with
  | nil => simp [evaluateAll]
  | cons slot slots ih =>
      rw [List.forall_mem_cons, ← ih]
      have hsplit : g.evaluateAll (slot :: slots) = (g.evaluate slot).2.evaluateAll slots := rfl
      rw [hsplit]
      constructor
      · intro hsame
        have hthere : g.Counted (g.evaluate slot).2 := evaluateWithin_counted g.vars.size [] slot g
        have hback := evaluateAll_counted slots (g.evaluate slot).2
        rw [hsame] at hback
        have hfirst : (g.evaluate slot).2 = g := hthere.eq_of_back hback
        rw [hfirst] at hsame
        exact ⟨hfirst, hsame⟩
      · rintro ⟨hfirst, hrest⟩
        rw [hfirst, hrest]

/-- A pass that runs nothing leaves the graph as it is. -/
theorem pass_eq_of_runs_eq {g : Graph σ} (hruns : g.pass.runs = g.runs) : g.pass = g := by
  rcases evaluateAll_counted g.roots g with hpass | hlt
  · exact hpass
  · have hlt : g.runs < g.pass.runs := hlt
    omega

/-- A pass leaves the graph as it is exactly where all its visits find nothing to do. -/
theorem pass_eq_iff {g : Graph σ} (hg : g.Ready) :
    g.pass = g ↔ ∀ path slot, g.RootVisit path slot → g.Current path slot := by
  unfold pass
  rw [evaluateAll_eq_iff]
  have hquiet : ∀ root, (g.evaluate root).2 = g ↔
      ∀ path slot, g.Meets [] root path slot → g.Current path slot :=
    evaluateWithin_snd_eq_iff hg (unvisited_nil_le hg rfl)
  constructor
  · rintro hsame path slot ⟨root, hroot, hmeets⟩
    exact (hquiet root).mp (hsame root hroot) path slot hmeets
  · intro hcurrent root hroot
    exact (hquiet root).mpr fun path slot hmeets => hcurrent path slot ⟨root, hroot, hmeets⟩

/-- Evaluations bring up to date what they visit. -/
theorem evaluateAll_fresh {Q : List Slot → Slot → Prop} {g h : Graph σ} (slots : List Slot)
    (hh : h.Ready) (hbare : h.bare = g.bare)
    (hQ : ∀ root ∈ slots, ∀ p s, g.Meets [] root p s → Q p s) {s : Slot}
    (hs : h.Fresh Q s ∨ ∃ root ∈ slots, ∃ p, g.Meets [] root p s) :
    (h.evaluateAll slots).Fresh Q s := by
  induction slots generalizing h with
  | nil => simpa [evaluateAll] using hs
  | cons root slots ih =>
      rw [List.forall_mem_cons] at hQ
      obtain ⟨hroot, hslots⟩ := hQ
      obtain ⟨hready, hbare'⟩ := hh.evaluateWithin h.vars.size [] root
      refine ih hready (hbare'.trans hbare) hslots ?_
      have hfirst : (h.Fresh Q s ∨ ∃ p, g.Meets [] root p s) → (h.evaluate root).2.Fresh Q s :=
        evaluateWithin_fresh (unvisited_nil_le hh hbare) root hh hbare hroot s
      rcases hs with hs | ⟨other, hmem, p, hmeets⟩
      · exact Or.inl (hfirst (Or.inl hs))
      · rcases List.mem_cons.mp hmem with rfl | hmem
        · exact Or.inl (hfirst (Or.inr ⟨p, hmeets⟩))
        · exact Or.inr ⟨other, hmem, p, hmeets⟩

/-- In a steady graph, a second pass finds nothing to do. -/
theorem Steady.pass_pass {g : Graph σ} (hsteady : g.Steady) (hg : g.Ready) : g.pass.pass = g.pass := by
  obtain ⟨hready, hbare⟩ := hg.pass
  have hagree := agree_of_bare_eq hbare
  refine (pass_eq_iff hready).mpr fun path slot hvisit => ?_
  have hvisit : g.RootVisit path slot := hvisit.of_bare_eq hbare.symm
  obtain ⟨root, hroot, hmeets⟩ := id hvisit
  have hfresh : g.pass.Fresh g.RootVisit slot := by
    refine evaluateAll_fresh g.roots hg rfl ?_ (Or.inr ⟨root, hroot, path, hmeets⟩)
    exact fun root hroot p s hmeets => ⟨root, hroot, hmeets⟩
  -- the variable is current on some path, hence on this one
  obtain ⟨path', hvisit', v, cache, hv, hcache, hkept⟩ := hfresh
  refine ⟨v, cache, hv, hcache, ?_⟩
  rw [hagree.stampsAt] at hkept ⊢
  exact Stamp.sameList_trans hkept (hsteady path' path slot hvisit' hvisit)

/-! ## The loop -/

theorem maxPasses_eq_of_bare_eq {g h : Graph σ} (hbare : h.bare = g.bare) :
    h.maxPasses = g.maxPasses := by
  have hpasses : h.bare.maxPasses = g.bare.maxPasses := by rw [hbare]
  exact hpasses

/-- Settling changes nothing but what is kept, counted and told. -/
theorem Ready.settle {g : Graph σ} (hg : g.Ready) : g.settle.2.Ready ∧ g.settle.2.bare = g.bare := by
  refine settleWithin_invariant (P := fun h => h.Ready ∧ h.bare = g.bare) ?_ g.maxPasses ⟨hg, rfl⟩
  rintro h depth path slot ⟨hh, hbare⟩
  obtain ⟨hready, hbare'⟩ := hh.evaluateWithin depth path slot
  exact ⟨hready, hbare'.trans hbare⟩

/-- Settling succeeds, or fails because the passes ran out. -/
theorem settleWithin_fst {g : Graph σ} (hg : g.Ready) (passes : Nat) :
    (settleWithin passes g).1 = .ok () ∨
      (settleWithin passes g).1 = .error (.unsettled g.maxPasses) := by
  induction passes generalizing g with
  | zero => exact Or.inr rfl
  | succ passes ih =>
      obtain ⟨hready, hbare⟩ := hg.pass
      rw [← maxPasses_eq_of_bare_eq hbare]
      simp only [settleWithin]
      split
      · exact Or.inl rfl
      · exact ih hready

/-- Two passes settle a steady graph. -/
theorem Steady.settleWithin {g : Graph σ} (hsteady : g.Steady) (hg : g.Ready) {passes : Nat}
    (hpasses : 2 ≤ passes) : (settleWithin passes g).1 = .ok () := by
  obtain ⟨rest, rfl⟩ : ∃ rest, passes = rest + 1 + 1 := ⟨passes - 2, by omega⟩
  simp only [Graph.settleWithin]
  split
  · rfl
  · rw [hsteady.pass_pass hg, if_pos rfl]

/-- A graph in which every visit finds nothing to do is steady. -/
theorem steady_of_pass_eq {g : Graph σ} (hg : g.Ready) (hpass : g.pass = g) : g.Steady := by
  intro path path' slot hvisit hvisit'
  have hcurrent := (pass_eq_iff hg).mp hpass
  obtain ⟨v, cache, hv, hcache, hkept⟩ := hcurrent path slot hvisit
  obtain ⟨w, cache', hw, hcache', hkept'⟩ := hcurrent path' slot hvisit'
  -- one cache cannot hold stamps that differ
  rw [hv] at hw
  cases hw
  rw [hcache] at hcache'
  cases hcache'
  exact Stamp.sameList_trans (Stamp.sameList_symm hkept) hkept'

/-- Whether a graph is steady does not depend on what is kept. -/
theorem Steady.of_bare_eq {g h : Graph σ} (hbare : h.bare = g.bare) (hsteady : g.Steady) :
    h.Steady := by
  intro path path' slot hvisit hvisit'
  rw [(agree_of_bare_eq hbare).stampsAt, (agree_of_bare_eq hbare).stampsAt]
  exact hsteady path path' slot (hvisit.of_bare_eq hbare.symm) (hvisit'.of_bare_eq hbare.symm)

/-- A graph that settles, in whatever number of passes, is steady. -/
theorem steady_of_settleWithin {g : Graph σ} (hg : g.Ready) {passes : Nat}
    (hok : (settleWithin passes g).1 = .ok ()) : g.Steady := by
  induction passes generalizing g with
  | zero => cases hok
  | succ passes ih =>
      simp only [Graph.settleWithin] at hok
      split at hok
      · next hruns => exact steady_of_pass_eq hg (pass_eq_of_runs_eq hruns)
      · obtain ⟨hready, hbare⟩ := hg.pass
        exact (ih hready hok).of_bare_eq hbare.symm

/-- A graph settles exactly when it is steady. -/
theorem settle_ok_iff {g : Graph σ} (hg : g.Ready) (hpasses : 2 ≤ g.maxPasses) :
    g.settle.1 = .ok () ↔ g.Steady :=
  ⟨steady_of_settleWithin hg, fun hsteady => hsteady.settleWithin hg hpasses⟩

/-- Once the graph has settled, the value of a name is the one computed from scratch. -/
theorem value_same {g : Graph σ} (hg : g.Ready) (hok : g.settle.1 = .ok ()) (m : ModuleId)
    (name : String) : sameResult (g.value m name).1 (g.scratchValue m name) = true := by
  obtain ⟨hready, hbare⟩ := hg.settle
  have hagree := agree_of_bare_eq hbare
  unfold value scratchValue
  rcases hsettle : g.settle with ⟨outcome, h⟩
  rw [hsettle] at hok hready hagree
  obtain rfl : outcome = .ok () := hok
  simp only at hready hagree ⊢
  rw [hagree.lookup]
  cases g.lookup m name with
  | none => exact sameResult_refl _
  | some slot =>
      simp only
      rw [← hagree.scratch]
      exact evaluate_same hready slot

/-- A graph that settles has come to a pass that changes nothing. -/
theorem pass_of_settleWithin {g : Graph σ} {passes : Nat} (hok : (settleWithin passes g).1 = .ok ()) :
    (settleWithin passes g).2.pass = (settleWithin passes g).2 := by
  induction passes generalizing g with
  | zero => cases hok
  | succ passes ih =>
      simp only [Graph.settleWithin] at hok ⊢
      split at hok
      · next hruns =>
          rw [if_pos hruns]
          have hpass : g.pass = g := pass_eq_of_runs_eq hruns
          simp only [hpass]
      · next hruns =>
          rw [if_neg hruns]
          exact ih hok

/-- A graph that a pass leaves as it is settles at once, in one pass. -/
theorem settleWithin_of_pass_eq {g : Graph σ} (hpass : g.pass = g) {passes : Nat} (hpasses : 0 < passes) :
    settleWithin passes g = (.ok (), g) := by
  obtain ⟨rest, rfl⟩ : ∃ rest, passes = rest + 1 := ⟨passes - 1, by omega⟩
  simp only [Graph.settleWithin, hpass, if_pos]

/-- Once a graph has settled, the value of a name is that of its variable. -/
theorem value_of_settle {g : Graph σ} (hok : g.settle.1 = .ok ()) {m : ModuleId} {name : String}
    {slot : Slot} (hlookup : g.settle.2.lookup m name = some slot) :
    g.value m name = g.settle.2.evaluate slot := by
  unfold value
  rcases hsettle : g.settle with ⟨outcome, h⟩
  rw [hsettle] at hok hlookup
  obtain rfl : outcome = .ok () := hok
  simp only at hlookup ⊢
  rw [hlookup]

theorem maxPasses_pos_of_settle {g : Graph σ} (hok : g.settle.1 = .ok ()) : 0 < g.maxPasses := by
  by_contra hzero
  have hpasses : g.maxPasses = 0 := by omega
  rw [settle, hpasses] at hok
  cases hok

/-- A graph settles if there is a pass in which to find that nothing is to be done, or if it is steady and
there is one more. -/
theorem settle_ok_iff_pass {g : Graph σ} (hg : g.Ready) : g.settle.1 = .ok () ↔
    g.pass = g ∧ 0 < g.maxPasses ∨ g.Steady ∧ 2 ≤ g.maxPasses := by
  constructor
  · intro hok
    have hpos : 0 < g.maxPasses := maxPasses_pos_of_settle hok
    by_cases hpasses : 2 ≤ g.maxPasses
    · exact Or.inr ⟨steady_of_settleWithin hg hok, hpasses⟩
    · have hone : g.maxPasses = 0 + 1 := by omega
      rw [settle, hone, Graph.settleWithin] at hok
      split at hok
      · next hruns => exact Or.inl ⟨pass_eq_of_runs_eq hruns, hpos⟩
      · cases hok
  · rintro (⟨hpass, hpasses⟩ | ⟨hsteady, hpasses⟩)
    · rw [settle, settleWithin_of_pass_eq hpass hpasses]
    · exact hsteady.settleWithin hg hpasses

/-- A graph that does not settle has no values. -/
theorem value_fst_of_settle_error {g : Graph σ} {fault : Fault} (herror : g.settle.1 = .error fault)
    (m : ModuleId) (name : String) : (g.value m name).1 = .error fault := by
  unfold value
  rcases hsettle : g.settle with ⟨outcome, h⟩
  rw [hsettle] at herror
  obtain rfl : outcome = .error fault := herror
  rfl

/-- A name has a value only if the graph settles, and then it is that of a variable. -/
theorem exists_of_value_ok {g : Graph σ} {m : ModuleId} {name : String} {value : Value}
    (hok : (g.value m name).1 = .ok value) : g.settle.1 = .ok () ∧
      ∃ slot, g.settle.2.lookup m name = some slot ∧ g.value m name = g.settle.2.evaluate slot := by
  cases hsettle : g.settle.1 with
  | error fault =>
      rw [value_fst_of_settle_error hsettle] at hok
      cases hok
  | ok settled =>
      refine ⟨rfl, ?_⟩
      cases hlookup : g.settle.2.lookup m name with
      | some slot => exact ⟨slot, rfl, value_of_settle hsettle hlookup⟩
      | none =>
          unfold Graph.value at hok
          rcases hout : g.settle with ⟨outcome, h⟩
          rw [hout] at hok hsettle hlookup
          obtain rfl : outcome = .ok () := hsettle
          simp only at hok hlookup
          rw [hlookup] at hok
          cases hok

/-! ## Without cycles -/

/-- No cycle of dependencies can be reached from the variable. -/
def AcyclicFrom (g : Graph σ) (slot : Slot) : Prop :=
  ∀ s, Relation.ReflTransGen g.DependsOn slot s → ¬ Relation.TransGen g.DependsOn s s

theorem AcyclicFrom.of_reachable {g : Graph σ} {slot next : Slot} (h : g.AcyclicFrom slot)
    (hnext : Relation.ReflTransGen g.DependsOn slot next) : g.AcyclicFrom next :=
  fun s hs => h s (hnext.trans hs)

/-- No cycle can be reached from a variable if none can be from what it depends on. -/
theorem acyclicFrom_of_next {g : Graph σ} {slot : Slot}
    (h : ∀ next, g.DependsOn slot next → g.AcyclicFrom next) : g.AcyclicFrom slot := by
  intro s hs hcycle
  rcases hs.cases_head with rfl | ⟨next, hnext, hs⟩
  · -- a cycle through the variable passes through something that it depends on
    obtain ⟨next, hnext, hback⟩ := Relation.TransGen.head'_iff.mp hcycle
    exact h next hnext next .refl (.tail' hback hnext)
  · exact h next hnext s hs hcycle

/-- Every variable of a path leads to the variable. -/
def Trail (g : Graph σ) (path : List Slot) (slot : Slot) : Prop :=
  ∀ s ∈ path, Relation.TransGen g.DependsOn s slot

theorem trail_nil (g : Graph σ) (slot : Slot) : g.Trail [] slot := by
  simp [Trail]

theorem Trail.cons {g : Graph σ} {path : List Slot} {slot next : Slot} (h : g.Trail path slot)
    (hnext : g.DependsOn slot next) : g.Trail (slot :: path) next := by
  unfold Trail
  rw [List.forall_mem_cons]
  exact ⟨.single hnext, fun s hs => (h s hs).tail hnext⟩

/-- A variable that no cycle can be reached from is not met again on the way to it. -/
theorem AcyclicFrom.not_mem {g : Graph σ} {path : List Slot} {slot : Slot} (h : g.AcyclicFrom slot)
    (htrail : g.Trail path slot) : slot ∉ path :=
  fun hmem => h slot .refl (htrail slot hmem)

/-- Below a variable that no cycle can be reached from, a path that is avoided stays so when the
variable is put on it. -/
theorem AcyclicFrom.avoids_cons {g : Graph σ} {path : List Slot} {slot next : Slot}
    (h : g.AcyclicFrom slot)
    (havoid : ∀ s, Relation.ReflTransGen g.DependsOn slot s → s ∉ path)
    (hnext : g.DependsOn slot next) {s : Slot} (hs : Relation.ReflTransGen g.DependsOn next s) :
    s ∉ slot :: path := by
  have hreach : Relation.TransGen g.DependsOn slot s := Relation.TransGen.head' hnext hs
  rw [List.mem_cons, not_or]
  refine ⟨?_, havoid s hreach.to_reflTransGen⟩
  rintro rfl
  exact h s .refl hreach

/-- Where evaluation agrees on the variable that a name leads to, it agrees on the name. -/
theorem resolve_congr {g : Graph σ} {eval eval' : Slot → Except Fault Value}
    {read : ModuleId × String}
    (h : ∀ next, g.lookup read.1 read.2 = some next → eval next = eval' next) :
    g.resolve eval read = g.resolve eval' read := by
  unfold resolve
  cases hlookup : g.lookup read.1 read.2 with
  | none => rfl
  | some next => exact h next hlookup

/-- Paths that agree on what can be reached from a variable still do so when the variable is put on them. -/
theorem mem_cons_iff_of_reachable {g : Graph σ} {path path' : List Slot} {slot next : Slot}
    (hpaths : ∀ s, Relation.ReflTransGen g.DependsOn slot s → (s ∈ path ↔ s ∈ path'))
    (hnext : g.DependsOn slot next) {s : Slot} (hs : Relation.ReflTransGen g.DependsOn next s) :
    s ∈ slot :: path ↔ s ∈ slot :: path' := by
  rw [List.mem_cons, List.mem_cons, hpaths s (.head hnext hs)]

/-- Of a path, only what can be reached from the variable matters. -/
theorem scratch_eq_of_mem_iff {g : Graph σ} {path path' : List Slot} {slot : Slot}
    (hpaths : ∀ s, Relation.ReflTransGen g.DependsOn slot s → (s ∈ path ↔ s ∈ path')) :
    g.scratch path slot = g.scratch path' slot := by
  induction hn : g.unvisited path using Nat.strongRecOn generalizing path path' slot with
  | ind n ih =>
      by_cases hmem : slot ∈ path
      · rw [scratch_mem hmem, scratch_mem ((hpaths slot .refl).mp hmem)]
      · have hmem' : slot ∉ path' := fun h => hmem ((hpaths slot .refl).mpr h)
        cases hv : g.vars.get? slot with
        | none => rw [scratch_dead hmem hv, scratch_dead hmem' hv]
        | some v =>
            rw [scratch_live hmem hv, scratch_live hmem' hv]
            congr 1
            refine List.map_congr_left fun read hread => resolve_congr fun next hlookup => ?_
            have hnext : g.DependsOn slot next := ⟨v, read, hv, hread, hlookup⟩
            exact ih _ (hn ▸ unvisited_cons_lt hmem hv)
              (fun s hs => mem_cons_iff_of_reachable hpaths hnext hs) rfl

/-- What a variable ought to read depends on no more of a path either. -/
theorem stampsAt_eq_of_mem_iff {g : Graph σ} {path path' : List Slot} {slot : Slot}
    (hpaths : ∀ s, Relation.ReflTransGen g.DependsOn slot s → (s ∈ path ↔ s ∈ path')) :
    g.stampsAt path slot = g.stampsAt path' slot := by
  cases hv : g.vars.get? slot with
  | none => rw [stampsAt, hv, stampsAt, hv]
  | some v =>
      rw [stampsAt_live hv, stampsAt_live hv]
      refine List.map_congr_left fun read hread => ?_
      have hread : g.resolve (g.scratch (slot :: path)) read =
          g.resolve (g.scratch (slot :: path')) read := by
        refine resolve_congr fun next hlookup => ?_
        have hnext : g.DependsOn slot next := ⟨v, read, hv, hread, hlookup⟩
        exact scratch_eq_of_mem_iff fun s hs => mem_cons_iff_of_reachable hpaths hnext hs
      rw [hread]

/-- What is visited can be reached, and the path holds variables from which it can be reached. -/
theorem Meets.trail {g : Graph σ} {path path' : List Slot} {slot slot' : Slot}
    (h : g.Meets path slot path' slot') :
    Relation.ReflTransGen g.DependsOn slot slot' ∧ ∀ s ∈ path', s ∈ path ∨
      (Relation.ReflTransGen g.DependsOn slot s ∧ Relation.TransGen g.DependsOn s slot') := by
  induction h with
  | here hmem hv => exact ⟨.refl, fun s hs => Or.inl hs⟩
  | @there path path' slot next slot' hmem hnext hmeets ih =>
      obtain ⟨hreach, htrail⟩ := ih
      refine ⟨.head hnext hreach, fun s hs => ?_⟩
      rcases htrail s hs with hs | ⟨hs, hslot⟩
      · rcases List.mem_cons.mp hs with rfl | hs
        · exact Or.inr ⟨.refl, .head' hnext hreach⟩
        · exact Or.inl hs
      · exact Or.inr ⟨.head hnext hs, hslot⟩

/-- Where no cycle can be reached from the roots, the graph is steady. -/
theorem steady_of_acyclic {g : Graph σ} (hacyclic : ∀ root ∈ g.roots, g.AcyclicFrom root) :
    g.Steady := by
  have havoid : ∀ {path slot}, g.RootVisit path slot →
      ∀ s, Relation.ReflTransGen g.DependsOn slot s → s ∉ path := by
    rintro path slot ⟨root, hroot, hmeets⟩ s hs hmem
    -- a variable of the path that is met again lies on a cycle
    rcases hmeets.trail.2 s hmem with hnil | ⟨hroot', hslot⟩
    · cases hnil
    · exact hacyclic root hroot s hroot' (hslot.trans_left hs)
  intro path path' slot hvisit hvisit'
  have hstamps : g.stampsAt path slot = g.stampsAt path' slot :=
    stampsAt_eq_of_mem_iff fun s hs => iff_of_false (havoid hvisit s hs) (havoid hvisit' s hs)
  rw [hstamps]
  exact Stamp.sameList_refl _

/-- A rank that falls along every dependency excludes cycles. -/
theorem acyclicFrom_of_rank {g : Graph σ} (rank : Slot → Nat)
    (hrank : ∀ place ∈ g.vars.toList, ∀ read ∈ place.2.reads, ∀ next ∈ g.lookup read.1 read.2,
      rank next < rank place.1) (slot : Slot) : g.AcyclicFrom slot := by
  have hfalls : ∀ {s t}, Relation.TransGen g.DependsOn s t → rank t < rank s := by
    have hstep : ∀ {s t}, g.DependsOn s t → rank t < rank s := by
      rintro s t ⟨v, read, hv, hread, hlookup⟩
      exact hrank (s, v) (Slots.mem_toList.mpr hv) read hread t hlookup
    intro s t h
    induction h with
    | single hst => exact hstep hst
    | tail _ hst ih => exact Nat.lt_trans (hstep hst) ih
  intro s _ hcycle
  exact Nat.lt_irrefl _ (hfalls hcycle)

/-! ## Values -/

/-- Incremental evaluation equals evaluation from scratch. After every run of operations whose bodies are
functions of their inputs, in a graph with no cycle below its observed and anonymous variables, settling
succeeds, and the value of each name in each module is the one computed from scratch from the names and
rules of the moment, up to equality of values. -/
theorem value_eq_scratch (world : World σ) (maxPasses : Nat) (ops : List (Op σ))
    (hvalid : Op.ValidAll { world, maxPasses } ops)
    (hbodies : ∀ op ∈ ops, op.Satisfies Body.Functional) :
    let g := Op.applyAll { world, maxPasses } ops
    2 ≤ g.maxPasses → (∀ root ∈ g.roots, g.AcyclicFrom root) →
      ∀ m name, g.settle.1 = .ok () ∧
        sameResult (g.value m name).1 (g.scratchValue m name) = true := by
  intro g hpasses hacyclic m name
  have hg : g.Ready := kept_applyAll world maxPasses ops hvalid hbodies
  have hok : g.settle.1 = .ok () := (settle_ok_iff hg hpasses).mpr (steady_of_acyclic hacyclic)
  exact ⟨hok, value_same hg hok m name⟩

/-- A name that is read, given to another variable, read again, and left to an import in a copy of the
module. What reads the name changes from `null` to the built-in value that the other variable gives it. -/
theorem value_eq_scratch_after_shadowing :
    let start : Graph Unit := { world := { host := () }, maxPasses := 2 }
    let ops : List (Op Unit) := [.edit .newModule, .edit (.newVariable ⟨0⟩ none),
      .edit (.define ⟨0, 0⟩ (some "a") [] (.constant (.data .null))),
      .edit (.newVariable ⟨0⟩ (some "watch")), .edit (.define ⟨1, 0⟩ (some "b") ["a"] .first),
      .value ⟨0⟩ "b", .edit (.newVariable ⟨0⟩ none),
      .edit (.define ⟨2, 0⟩ (some "a") ["Generators"] .first), .settle, .edit (.delete ⟨0, 0⟩),
      .edit (.derive ⟨0⟩ [⟨"b", "c"⟩] ⟨0⟩), .value ⟨1⟩ "c"]
    let g := Op.applyAll start ops
    Op.ValidAll start ops ∧ (∀ op ∈ ops, op.Satisfies Body.Functional) ∧ 2 ≤ g.maxPasses ∧
      (∀ root ∈ g.roots, g.AcyclicFrom root) ∧
      sameResult ((Op.applyAll start (ops.take 5)).value ⟨0⟩ "b").1 (.ok (.data .null)) = true ∧
      sameResult (g.value ⟨1⟩ "b").1 (.ok (.intrinsic .generators)) = true ∧
      sameResult (g.scratchValue ⟨1⟩ "b") (.ok (.intrinsic .generators)) = true ∧
      g.settle.1 = .ok () ∧ sameResult (g.value ⟨1⟩ "b").1 (g.scratchValue ⟨1⟩ "b") = true := by
  intro start ops g
  have hvalid : Op.ValidAll start ops := by decide +kernel
  have hbodies : ∀ op ∈ ops, op.Satisfies Body.Functional := by
    simp only [ops, List.forall_mem_cons, List.not_mem_nil, false_imp_iff, implies_true, and_true]
    exact ⟨trivial, trivial, Body.functional_constant _, trivial, Body.functional_first, trivial, trivial,
      Body.functional_first, trivial, trivial, trivial, trivial⟩
  have hpasses : 2 ≤ g.maxPasses := by decide +kernel
  have hacyclic : ∀ root ∈ g.roots, g.AcyclicFrom root := fun root _ =>
    acyclicFrom_of_rank (fun slot => if slot.index ≤ 1 then 1 else if slot.index = 4 then 2 else 0)
      (by decide +kernel) root
  exact ⟨hvalid, hbodies, hpasses, hacyclic, by decide +kernel, by decide +kernel, by decide +kernel,
    value_eq_scratch { host := () } 2 ops hvalid hbodies hpasses hacyclic ⟨1⟩ "b"⟩

end CellGraph.Graph
