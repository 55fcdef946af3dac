import CellGraph.Proofs.Graph.Copies
import CellGraph.Proofs.Graph.Cycles
import CellGraph.Proofs.Graph.Nesting

/-!
# Derivation as substitution

To derive a module is to substitute imports for some of its names in a private copy. What was there
before does not notice: it cannot reach the copies, and they are not roots (`Extends`). So it has the same
values and settles as before.

In the derived module the names are looked up anew, so a copy reads copies, and an alias where there is
one. Imports still read where they did. A name that depends on no alias inside its module (`Needs`)
therefore has the value that it has there (`Derived.scratch_copy`): the two evaluations go along names in
step. Their paths differ, but a value is never the work of a path: where the path has cut something off,
there is a fault (`Wired.scratch_of_subset`).
-/

namespace CellGraph

variable {σ : Type}

/-- Variables with the same rule and inputs read the same names, but each looks its inputs up in its own
module. -/
theorem Variable.map_reads_congr {α : Type} {v w : Variable σ} (hrule : w.rule = v.rule)
    (hinputs : w.inputs = v.inputs) {f f' : ModuleId × String → α}
    (himport : ∀ name source, v.rule = .importing name source → f' (source, name) = f (source, name))
    (hinput : ∀ input ∈ v.inputs, (v.home, input) ∈ v.reads → f' (w.home, input) = f (v.home, input)) :
    w.reads.map f' = v.reads.map f := by
  unfold reads at hinput ⊢
  rw [hrule, hinputs]
  cases hown : v.rule with
  | importing name source => simp [himport name source hown]
  | undefined | define =>
      simp only [hown] at hinput
      rw [List.map_map, List.map_map]
      exact List.map_congr_left fun input hmem => hinput input hmem (List.mem_map_of_mem hmem)

namespace Graph

/-! ## Values and paths -/

/-- What a variable reads is read in a module that exists. -/
theorem Wired.hasModule_of_read {g : Graph σ} (hwired : g.Wired) (hg : g.Sound) {slot : Slot}
    {v : Variable σ} (hv : g.vars.get? slot = some v) {read : ModuleId × String} (hread : read ∈ v.reads) :
    g.HasModule read.1 := by
  have hfits := hwired slot v hv
  have hhome : ∀ {read}, read ∈ v.inputs.map (fun name => (v.home, name)) → g.HasModule read.1 := by
    intro read hread
    obtain ⟨name, -, rfl⟩ := List.mem_map.mp hread
    exact hg.home hv
  unfold Variable.reads at hread
  cases hrule : v.rule with
  | undefined =>
      rw [hrule] at hread
      exact hhome hread
  | define body =>
      rw [hrule] at hread
      exact hhome hread
  | importing name source =>
      rw [hrule] at hread hfits
      obtain rfl : read = (source, name) := by simpa using hread
      exact hfits

/-- A variable has a value only where it is not met again and all that it reads has one. -/
theorem Wired.reads_of_scratch {g : Graph σ} (hwired : g.Wired) {path : List Slot} {slot : Slot}
    {value : Value} (hok : g.scratch path slot = .ok value) :
    slot ∉ path ∧ ∃ v, g.vars.get? slot = some v ∧
      v.rule.result g.world (v.reads.map (g.resolve (g.scratch (slot :: path)))) = .ok value ∧
      ∀ read ∈ v.reads, ∀ next, g.lookup read.1 read.2 = some next →
        ∃ value, g.scratch (slot :: path) next = .ok value := by
  have hmem : slot ∉ path := by
    intro hmem
    rw [scratch_mem hmem] at hok
    cases hok
  cases hv : g.vars.get? slot with
  | none =>
      rw [scratch_dead hmem hv] at hok
      cases hok
  | some v =>
      rw [scratch_live hmem hv] at hok
      refine ⟨hmem, v, rfl, hok, fun read hread next hlookup => ?_⟩
      have hresults := Variable.results_ok_of_result (hwired slot v hv) (by simp) hok
      simpa only [resolve, hlookup] using hresults _ (List.mem_map_of_mem hread)

/-- A value stays the same when fewer variables wait. -/
theorem Wired.scratch_of_subset {g : Graph σ} (hwired : g.Wired) {path path' : List Slot} {slot : Slot}
    {value : Value} (hsub : ∀ s ∈ path', s ∈ path) (hok : g.scratch path slot = .ok value) :
    g.scratch path' slot = .ok value := by
  induction hn : g.unvisited path using Nat.strongRecOn generalizing path path' slot value with
  | ind n ih =>
      obtain ⟨hmem, v, hv, hresult, hreads⟩ := hwired.reads_of_scratch hok
      rw [scratch_live (fun h => hmem (hsub slot h)) hv, ← hresult]
      congr 1
      refine List.map_congr_left fun read hread => resolve_congr fun next hlookup => ?_
      obtain ⟨own, hnext⟩ := hreads read hread next hlookup
      rw [hnext]
      refine ih _ (hn ▸ unvisited_cons_lt hmem hv) ?_ hnext rfl
      exact fun s hs => List.mem_cons.mpr ((List.mem_cons.mp hs).imp_right (hsub s))

/-- A visit ends at a variable that is there. -/
theorem Meets.live {g : Graph σ} {path path' : List Slot} {slot slot' : Slot}
    (h : g.Meets path slot path' slot') : ∃ v, g.vars.get? slot' = some v := by
  induction h with
  | here _ hv => exact ⟨_, hv⟩
  | there _ _ _ ih => exact ih

/-! ## Extensions -/

/-- The second graph has the modules and variables of the first as they are, and no further roots. -/
structure Extends (g h : Graph σ) : Prop where
  world : h.world = g.world
  maxPasses : h.maxPasses = g.maxPasses
  lookup : ∀ {m : ModuleId}, g.HasModule m → ∀ name, h.lookup m name = g.lookup m name
  old : ∀ {slot : Slot} {v : Variable σ}, g.vars.get? slot = some v → h.vars.get? slot = some v
  roots : ∀ slot, slot ∈ h.roots ↔ slot ∈ g.roots

namespace Extends

variable {g h : Graph σ} (hgh : g.Extends h) (hg : g.Intact)

include hgh

theorem label {slot : Slot} {v : Variable σ} (hv : g.vars.get? slot = some v) :
    h.label slot = g.label slot := by
  unfold Graph.label
  rw [hv, hgh.old hv]

include hg

theorem lookup_read {slot : Slot} {v : Variable σ} (hv : g.vars.get? slot = some v)
    {read : ModuleId × String} (hread : read ∈ v.reads) :
    h.lookup read.1 read.2 = g.lookup read.1 read.2 :=
  hgh.lookup (hg.wired.hasModule_of_read hg.kept.sound hv hread) read.2

/-- What a variable of the first graph depends on is in the first graph. -/
theorem dependsOn_iff {slot next : Slot} {v : Variable σ} (hv : g.vars.get? slot = some v) :
    h.DependsOn slot next ↔ g.DependsOn slot next := by
  constructor
  · rintro ⟨w, read, hw, hread, hlookup⟩
    obtain rfl : v = w := Option.some.inj ((hgh.old hv).symm.trans hw)
    exact ⟨v, read, hv, hread, (hgh.lookup_read hg hv hread) ▸ hlookup⟩
  · rintro ⟨w, read, hw, hread, hlookup⟩
    exact ⟨w, read, hgh.old hw, hread, (hgh.lookup_read hg hw hread).trans hlookup⟩

theorem live_of_reachable {slot s : Slot} (hlive : ∃ v, g.vars.get? slot = some v)
    (hs : Relation.ReflTransGen h.DependsOn slot s) : ∃ v, g.vars.get? s = some v := by
  induction hs with
  | refl => exact hlive
  | tail _ hnext ih =>
      obtain ⟨v, hv⟩ := ih
      obtain ⟨w, read, -, -, hlookup⟩ := (hgh.dependsOn_iff hg hv).mp hnext
      exact hg.kept.sound.live_of_lookup hlookup

/-- Where evaluation agrees on the variables of the first graph, it agrees on what they read. -/
theorem resolve_read {slot : Slot} {v : Variable σ} (hv : g.vars.get? slot = some v)
    {read : ModuleId × String} (hread : read ∈ v.reads) {eval eval' : Slot → Except Fault Value}
    (heval : ∀ next, (∃ w, g.vars.get? next = some w) → eval next = eval' next) :
    h.resolve eval read = g.resolve eval' read := by
  unfold resolve
  rw [hgh.lookup_read hg hv hread]
  cases hlookup : g.lookup read.1 read.2 with
  | none => rfl
  | some next => exact heval next (hg.kept.sound.live_of_lookup hlookup)

/-- The variables of the first graph have the same results from scratch. -/
theorem scratch_eq {slot : Slot} (hlive : ∃ v, g.vars.get? slot = some v) (path : List Slot) :
    h.scratch path slot = g.scratch path slot := by
  induction hn : g.unvisited path using Nat.strongRecOn generalizing path slot with
  | ind n ih =>
      obtain ⟨v, hv⟩ := hlive
      by_cases hmem : slot ∈ path
      · rw [scratch_mem hmem, scratch_mem hmem, hgh.label hv]
      · rw [scratch_live hmem hv, scratch_live hmem (hgh.old hv), hgh.world]
        congr 1
        refine List.map_congr_left fun read hread => hgh.resolve_read hg hv hread fun next hnext => ?_
        exact ih _ (hn ▸ unvisited_cons_lt hmem hv) hnext _ rfl

/-- So has every name of a module of the first graph, on any path of variables beside it. -/
theorem resolve_eq {read : ModuleId × String} (hmodule : g.HasModule read.1) {path : List Slot}
    (hpath : ∀ s ∈ path, g.vars.get? s = none) :
    h.resolve (h.scratch path) read = g.resolve (g.scratch []) read := by
  unfold resolve
  rw [hgh.lookup hmodule]
  cases hlookup : g.lookup read.1 read.2 with
  | none => rfl
  | some next =>
      have hlive := hg.kept.sound.live_of_lookup hlookup
      -- what is beside the first graph cannot be reached from it
      have havoid : ∀ s, Relation.ReflTransGen h.DependsOn next s → s ∉ path := by
        intro s hs hmem
        obtain ⟨v, hv⟩ := hgh.live_of_reachable hg hlive hs
        rw [hpath s hmem] at hv
        cases hv
      calc h.scratch path next
          = h.scratch [] next :=
            scratch_eq_of_mem_iff fun s hs => iff_of_false (havoid s hs) List.not_mem_nil
        _ = g.scratch [] next := hgh.scratch_eq hg hlive []

theorem stampsAt_eq {slot : Slot} {v : Variable σ} (hv : g.vars.get? slot = some v) (path : List Slot) :
    h.stampsAt path slot = g.stampsAt path slot := by
  have hstampOf : h.stampOf = g.stampOf := by
    funext result
    unfold stampOf versionOf
    rw [hgh.world]
  rw [stampsAt_live hv, stampsAt_live (hgh.old hv), hstampOf]
  refine List.map_congr_left fun read hread => ?_
  rw [hgh.resolve_read hg hv hread fun next hnext => hgh.scratch_eq hg hnext _]

/-- Evaluating a variable of the first graph comes to the same variables on the same paths. -/
theorem meets_iff {path path' : List Slot} {slot slot' : Slot}
    (hlive : ∃ v, g.vars.get? slot = some v) :
    h.Meets path slot path' slot' ↔ g.Meets path slot path' slot' := by
  constructor
  · intro hmeets
    induction hmeets with
    | here hmem _ =>
        obtain ⟨v, hv⟩ := hlive
        exact .here hmem hv
    | there hmem hnext _ ih =>
        obtain ⟨v, hv⟩ := id hlive
        have hnext' := (hgh.dependsOn_iff hg hv).mp hnext
        exact .there hmem hnext' (ih (hgh.live_of_reachable hg hlive (.single hnext)))
  · intro hmeets
    induction hmeets with
    | here hmem hv => exact .here hmem (hgh.old hv)
    | there hmem hnext _ ih =>
        obtain ⟨v, hv⟩ := id hlive
        have hnext' := (hgh.dependsOn_iff hg hv).mpr hnext
        exact .there hmem hnext' (ih (hgh.live_of_reachable hg hlive (.single hnext')))

theorem rootVisit_iff {path : List Slot} {slot : Slot} :
    h.RootVisit path slot ↔ g.RootVisit path slot := by
  unfold RootVisit
  refine exists_congr fun root => ?_
  rw [hgh.roots]
  refine and_congr_right fun hroot => ?_
  obtain ⟨v, hv, -⟩ := mem_roots.mp hroot
  exact hgh.meets_iff hg ⟨v, hv⟩

theorem current_iff {path : List Slot} {slot : Slot} {v : Variable σ} (hv : g.vars.get? slot = some v) :
    h.Current path slot ↔ g.Current path slot := by
  unfold Current
  rw [hgh.stampsAt_eq hg hv, hgh.old hv, hv]

/-- The first graph settles exactly if the second one does. -/
theorem settle_ok_iff (hready : g.Ready) (hready' : h.Ready) :
    h.settle.1 = .ok () ↔ g.settle.1 = .ok () := by
  have hpass : h.pass = h ↔ g.pass = g := by
    rw [pass_eq_iff hready, pass_eq_iff hready']
    refine forall₂_congr fun path slot => ?_
    rw [hgh.rootVisit_iff hg]
    refine imp_congr_right fun hvisit => ?_
    obtain ⟨root, -, hmeets⟩ := hvisit
    obtain ⟨v, hv⟩ := hmeets.live
    exact hgh.current_iff hg hv
  have hsteady : h.Steady ↔ g.Steady := by
    unfold Steady
    refine forall₃_congr fun path path' slot => ?_
    rw [hgh.rootVisit_iff hg, hgh.rootVisit_iff hg]
    refine imp_congr_right fun hvisit => ?_
    obtain ⟨root, -, hmeets⟩ := hvisit
    obtain ⟨v, hv⟩ := hmeets.live
    rw [hgh.stampsAt_eq hg hv, hgh.stampsAt_eq hg hv]
  rw [settle_ok_iff_pass hready, settle_ok_iff_pass hready', hpass, hsteady, hgh.maxPasses]

end Extends

/-! ## Copies -/

/-- The names that a name depends on inside its module, itself included. What an import reads is not among
them: it has no inputs. -/
inductive Needs (g : Graph σ) (m : ModuleId) : String → String → Prop where
  | self (name : String) : Needs g m name name
  | input {name input need : String} {slot : Slot} {v : Variable σ} (hname : g.lookup m name = some slot)
      (hv : g.vars.get? slot = some v) (hinput : input ∈ v.inputs) (hneeds : Needs g m input need) :
      Needs g m name need

/-- Names that are closed under inputs hold all that they need. -/
theorem Needs.mem_of_closed {g : Graph σ} {m : ModuleId} {names : List String}
    (hclosed : ∀ name ∈ names, ∀ slot ∈ g.lookup m name, ∀ v ∈ g.vars.get? slot,
      ∀ input ∈ v.inputs, input ∈ names) {name need : String} (hneeds : g.Needs m name need)
    (hname : name ∈ names) : need ∈ names := by
  induction hneeds with
  | self => exact hname
  | input hslot hv hinput _ ih => exact ih (hclosed _ hname _ hslot _ hv _ hinput)

/-- Two paths with the same names: one in a module, one in a module derived from it, beside the graph. -/
structure InStep (g : Graph σ) (m : ModuleId) (h : Graph σ) (d : ModuleId) (path path' : List Slot) :
    Prop where
  beside : ∀ s ∈ path', g.vars.get? s = none
  names : ∀ {name : String} {s' : Slot}, h.lookup d name = some s' → s' ∈ path' →
    ∃ s ∈ path, g.lookup m name = some s

theorem inStep_nil (g : Graph σ) (m : ModuleId) (h : Graph σ) (d : ModuleId) : g.InStep m h d [] [] where
  beside := by simp
  names _ hmem := by cases hmem

theorem InStep.not_mem {g h : Graph σ} {m d : ModuleId} {path path' : List Slot}
    (hpaths : g.InStep m h d path path') {name : String} {slot slot' : Slot}
    (hname : g.lookup m name = some slot) (hname' : h.lookup d name = some slot') (hmem : slot ∉ path) :
    slot' ∉ path' := by
  intro hmem'
  obtain ⟨s, hs, hown⟩ := hpaths.names hname' hmem'
  obtain rfl : slot = s := Option.some.inj (hname.symm.trans hown)
  exact hmem hs

/-- To read a name is to find its result from scratch. -/
theorem Ready.reading_same {g : Graph σ} (hg : g.Ready) (read : ModuleId × String) :
    sameResult (g.reading read).1.result (g.resolve (g.scratch []) read) = true := by
  unfold resolve
  cases hlookup : g.lookup read.1 read.2 with
  | none =>
      rw [reading_of_lookup_none hlookup]
      exact sameResult_refl _
  | some next =>
      rw [reading_of_lookup hlookup]
      exact evaluate_same hg next

namespace Derived

variable {g h : Graph σ} {m source d : ModuleId} {injections : List Binding}
  (hd : g.Derived m injections source d h)

include hd

theorem extension : g.Extends h where
  world := by
    have hworld := congrArg Graph.world hd.rest
    exact hworld
  maxPasses := by
    have hpasses := congrArg Graph.maxPasses hd.rest
    exact hpasses
  lookup {k} hk name := by
    unfold lookup
    rw [hd.scope k hk]
  old := hd.old
  roots slot := by
    rw [mem_roots, mem_roots]
    constructor
    · rintro ⟨w, hw, hroot⟩
      rcases hd.new hw with hold | ⟨-, ⟨name, origin, v, -, -, rfl⟩ | ⟨b, -, rfl⟩⟩
      · exact ⟨w, hold, hroot⟩
      · cases hroot
      · cases hroot
    · rintro ⟨v, hv, hroot⟩
      exact ⟨v, hd.old hv, hroot⟩

/-- What has a name in the derived module was not there before. -/
theorem dead_of_lookup (hg : g.Sound) {name : String} {slot : Slot}
    (hname : h.lookup d name = some slot) : g.vars.get? slot = none := by
  obtain ⟨w, hw, hhome, -⟩ := hd.sound.named hname
  rcases hd.new hw with hold | ⟨hdead, -⟩
  · have hmodule := hg.home hold
    rw [hhome] at hmodule
    exact absurd hmodule hd.fresh
  · exact hdead

/-- A step of both evaluations to variables with the same name. -/
theorem inStep_cons (hg : g.Sound) {path path' : List Slot} {name : String} {slot slot' : Slot}
    (hname : g.lookup m name = some slot) (hname' : h.lookup d name = some slot')
    (hpaths : g.InStep m h d path path') : g.InStep m h d (slot :: path) (slot' :: path') where
  beside := List.forall_mem_cons.mpr ⟨hd.dead_of_lookup hg hname', hpaths.beside⟩
  names {own s'} hs' hmem := by
    rcases List.mem_cons.mp hmem with rfl | hmem
    · -- a variable has one name only
      obtain ⟨w, hw, -, hown⟩ := hd.sound.named hs'
      obtain ⟨u, hu, -, hname₁⟩ := hd.sound.named hname'
      obtain rfl : w = u := Option.some.inj (hw.symm.trans hu)
      obtain rfl : own = name := Option.some.inj (hown.symm.trans hname₁)
      exact ⟨slot, List.mem_cons_self, hname⟩
    · obtain ⟨s, hs, hown⟩ := hpaths.names hs' hmem
      exact ⟨s, List.mem_cons_of_mem _ hs, hown⟩

/-- A name that needs no alias has in the derived module the value that it has in the module. -/
theorem scratch_copy (hg : g.Intact) {path path' : List Slot} {name : String} {slot slot' : Slot}
    {value : Value}
    (hneeds : ∀ need, g.Needs m name need → injectionFor injections need = none)
    (hname : g.lookup m name = some slot) (hname' : h.lookup d name = some slot')
    (hpaths : g.InStep m h d path path') (hok : g.scratch path slot = .ok value) :
    h.scratch path' slot' = .ok value := by
  induction hn : g.unvisited path using Nat.strongRecOn
    generalizing path path' name slot slot' value with
  | ind n ih =>
      obtain ⟨hmem, v, hv, hresult, hreads⟩ := hg.wired.reads_of_scratch hok
      obtain ⟨copy, hcopy, hw⟩ := hd.copy (hneeds name (.self name)) hname hv
      obtain rfl : slot' = copy := Option.some.inj (hname'.symm.trans hcopy)
      have hnext := hd.inStep_cons hg.kept.sound hname hname' hpaths
      rw [scratch_live (hpaths.not_mem hname hname' hmem) hw, ← hresult, hd.extension.world]
      congr 1
      refine Variable.map_reads_congr (by rfl) (by rfl) (fun other k hrule => ?_)
        fun input hinput hread => ?_
      · -- an import reads where the original does
        have hread : (k, other) ∈ v.reads := by simp [Variable.reads, hrule]
        have hmodule : g.HasModule k := hg.wired.hasModule_of_read hg.kept.sound hv hread
        rw [hd.extension.resolve_eq hg hmodule hnext.beside]
        refine resolve_congr fun next hlookup => ?_
        obtain ⟨own, hown⟩ := hreads _ hread next hlookup
        rw [hown]
        exact hg.wired.scratch_of_subset (by simp) hown
      · -- an input is read under the same name, now in the derived module
        obtain ⟨u, hu, hhome, -⟩ := hg.kept.sound.named hname
        obtain rfl : v = u := Option.some.inj (hv.symm.trans hu)
        rw [hhome] at hread ⊢
        have hinputs : ∀ need, g.Needs m input need → injectionFor injections need = none :=
          fun need hneed => hneeds need (.input hname hv hinput hneed)
        have halias := hinputs input (.self input)
        unfold resolve
        cases hlookup : g.lookup m input with
        | none => simp only [hd.unbound halias hlookup]
        | some next =>
            obtain ⟨x, hx⟩ := hg.kept.sound.live_of_lookup hlookup
            obtain ⟨next', hlookup', -⟩ := hd.copy halias hlookup hx
            obtain ⟨own, hown⟩ := hreads _ hread next hlookup
            simp only [hlookup', hown]
            exact ih _ (hn ▸ unvisited_cons_lt hmem hv) hinputs hlookup hlookup' hnext hown rfl

/-- An alias has the result of the injected name in the source. -/
theorem scratchValue_alias (hg : g.Intact) (hsource : g.HasModule source) {name : String} {b : Binding}
    (hb : injectionFor injections name = some b) :
    h.scratchValue d name = g.resolve (g.scratch []) (source, b.name) := by
  obtain ⟨slot, hname, hw⟩ := hd.injected hb
  have hbeside : ∀ s ∈ [slot], g.vars.get? s = none := by
    simpa using hd.dead_of_lookup hg.kept.sound hname
  calc h.scratchValue d name
      = h.scratch [] slot := by simp only [scratchValue, hname]
    _ = h.resolve (h.scratch [slot]) (source, b.name) := scratch_live List.not_mem_nil hw
    _ = g.resolve (g.scratch []) (source, b.name) := hd.extension.resolve_eq hg hsource hbeside

theorem value_copy (hg : g.Intact) (hready : g.Ready) (hready' : h.Ready) {name : String} {value : Value}
    (hneeds : ∀ need, g.Needs m name need → ∀ b ∈ injections, b.newName ≠ need)
    (hok : (g.value m name).1 = .ok value) : sameResult (h.value d name).1 (.ok value) = true := by
  have hneeds' : ∀ need, g.Needs m name need → injectionFor injections need = none :=
    fun need hneed => injectionFor_eq_none_iff.mpr (hneeds need hneed)
  obtain ⟨hsettle, -⟩ := exists_of_value_ok hok
  have hsame := value_same hready hsettle m name
  rw [hok] at hsame
  obtain ⟨own, hown⟩ := ok_of_sameResult hsame ⟨value, rfl⟩
  have hcopy : h.scratchValue d name = .ok own := by
    cases hname : g.lookup m name with
    | none =>
        rw [scratchValue, hname] at hown
        cases hown
    | some slot =>
        obtain ⟨v, hv⟩ := hg.kept.sound.live_of_lookup hname
        obtain ⟨copy, hname', -⟩ := hd.copy (hneeds' name (.self name)) hname hv
        rw [scratchValue, hname] at hown
        rw [scratchValue, hname']
        exact hd.scratch_copy hg hneeds' hname hname' (inStep_nil ..) hown
  have hsame' := value_same hready' ((hd.extension.settle_ok_iff hg hready hready').mpr hsettle) d name
  rw [hcopy] at hsame'
  rw [hown] at hsame
  exact sameResult_trans hsame' (sameResult_symm hsame)

theorem value_alias (hg : g.Intact) (hready' : h.Ready) (hsource : g.HasModule source)
    (hsettle : h.settle.1 = .ok ()) {name : String} {b : Binding}
    (hb : injectionFor injections name = some b) :
    sameResult (h.value d name).1 (h.settle.2.reading (source, b.name)).1.result = true := by
  have hsame := value_same hready' hsettle d name
  obtain ⟨hsettled, hbare⟩ := hready'.settle
  have hagree := agree_of_bare_eq hbare
  have hreading := hsettled.reading_same (source, b.name)
  have hresolve : h.settle.2.resolve (h.settle.2.scratch []) (source, b.name) =
      g.resolve (g.scratch []) (source, b.name) := by
    rw [hagree.resolve, funext (hagree.scratch [])]
    exact hd.extension.resolve_eq hg hsource (by simp)
  rw [hd.scratchValue_alias hg hsource hb] at hsame
  rw [hresolve] at hreading
  exact sameResult_trans hsame (sameResult_symm hreading)

end Derived

/-! ## Derivation -/

/-- To derive a module is to substitute imports for names in a private copy. In every graph that a run
leads to, the modules and variables that are there stay as they are, with what they keep; the names of the
derived module are those of the module and the aliases, an alias being an import of what its last injection
names and every other name a copy of the variable that has it.

Where all bodies are functions of their inputs, deriving does not matter for whether the graph settles, a
name that needs no alias inside the module and has a value there has it in the derived module, and an alias
has what is read for the injected name in the source, both up to equality of values. -/
theorem derive_substitutes (world : World σ) (maxPasses : Nat) (acts : List (Act σ))
    (hvalid : Act.ValidAll { world, maxPasses } acts) (m source : ModuleId) (injections : List Binding) :
    let g := Act.applyAll { world, maxPasses } acts
    g.HasModule m → g.HasModule source → ∀ d h, g.derive m injections source = (d, h) →
      g.Derived m injections source d h ∧
      ((∀ slot v, g.vars.get? slot = some v → v.rule.Satisfies Body.Functional) →
        (h.settle.1 = .ok () ↔ g.settle.1 = .ok ()) ∧
        (∀ name value, (∀ need, g.Needs m name need → ∀ b ∈ injections, b.newName ≠ need) →
          (g.value m name).1 = .ok value → sameResult (h.value d name).1 (.ok value) = true) ∧
        (h.settle.1 = .ok () → ∀ name b, injectionFor injections name = some b →
          sameResult (h.value d name).1 (h.settle.2.reading (source, b.name)).1.result = true)) := by
  intro g hm hsource d h hderive
  have hg : g.Intact := intact_applyAll world maxPasses acts hvalid
  have hd : g.Derived m injections source d h := by
    have hd := derived_derive hg.kept.sound m injections source
    rwa [hderive] at hd
  refine ⟨hd, fun hrules => ?_⟩
  have hready : g.Ready := hg.kept_of_rules hrules
  have hready' : h.Ready := by
    have happly : (g.derive m injections source).2.Ready :=
      closed_kept.apply hready (.derive m injections source) ⟨hm, hsource⟩ trivial
    rwa [hderive] at happly
  refine ⟨hd.extension.settle_ok_iff hg hready hready', fun name value hneeds hok => ?_,
    fun hsettle name b hb => ?_⟩
  · exact hd.value_copy hg hready hready' hneeds hok
  · exact hd.value_alias hg hready' hsource hsettle hb

/-- A module in which `k` is injected twice: `b` does not need it, and `k` is what the second injection
names. -/
theorem derive_substitutes_twice_injected :
    let start : Graph Unit := { world := { host := () }, maxPasses := 2 }
    let acts : List (Act Unit) := [.op (.edit .newModule), .op (.edit .newModule),
      .op (.edit (.newVariable ⟨0⟩ none)),
      .op (.edit (.define ⟨0, 0⟩ (some "a") [] (.constant (.data .null)))),
      .op (.edit (.newVariable ⟨0⟩ (some "watch"))),
      .op (.edit (.define ⟨1, 0⟩ (some "b") ["a"] .first)),
      .op (.edit (.newVariable ⟨0⟩ none)), .op (.edit (.define ⟨2, 0⟩ (some "k") ["b"] .first)),
      .op .settle, .op (.edit (.newVariable ⟨1⟩ none)),
      .op (.edit (.define ⟨3, 0⟩ (some "z") ["Generators"] .first))]
    let injections : List Binding := [⟨"a", "k"⟩, ⟨"z", "k"⟩]
    let g := Act.applyAll start acts
    let d := (g.derive ⟨0⟩ injections ⟨1⟩).1
    let h := (g.derive ⟨0⟩ injections ⟨1⟩).2
    Act.ValidAll start acts ∧ g.HasModule ⟨0⟩ ∧ g.HasModule ⟨1⟩ ∧ g.Derived ⟨0⟩ injections ⟨1⟩ d h ∧
      (∀ slot v, g.vars.get? slot = some v → v.rule.Satisfies Body.Functional) ∧
      (∀ need, g.Needs ⟨0⟩ "b" need → ∀ b ∈ injections, b.newName ≠ need) ∧
      (∃ value, (g.value ⟨0⟩ "b").1 = .ok value ∧ sameResult (h.value d "b").1 (.ok value) = true) ∧
      h.settle.1 = .ok () ∧ injectionFor injections "k" = some ⟨"z", "k"⟩ ∧
      sameResult (h.value d "k").1 (h.settle.2.reading (⟨1⟩, "z")).1.result = true := by
  intro start acts injections g d h
  have hvalid : Act.ValidAll start acts := by decide +kernel
  have hbodies : ∀ act ∈ acts, act.Satisfies Body.Functional := by
    simp only [acts, List.forall_mem_cons, List.not_mem_nil, false_imp_iff, implies_true, and_true]
    exact ⟨trivial, trivial, trivial, Body.functional_constant _, trivial, Body.functional_first, trivial,
      Body.functional_first, trivial, trivial, Body.functional_first⟩
  have hrules : ∀ slot v, g.vars.get? slot = some v → v.rule.Satisfies Body.Functional :=
    rules_applyAll { host := () } 2 acts hvalid hbodies
  have hneeds : ∀ need, g.Needs ⟨0⟩ "b" need → ∀ b ∈ injections, b.newName ≠ need := by
    intro need hneed
    have hmem : need ∈ ["a", "b"] := hneed.mem_of_closed (by decide +kernel) (by decide)
    have hother : ∀ need ∈ ["a", "b"], ∀ b ∈ injections, b.newName ≠ need := by decide
    exact hother need hmem
  have hm : g.HasModule ⟨0⟩ := by decide +kernel
  have hsource : g.HasModule ⟨1⟩ := by decide +kernel
  have hread : sameResult (g.value ⟨0⟩ "b").1 (.ok (.data .null)) = true := by decide +kernel
  obtain ⟨value, hvalue⟩ := ok_of_sameResult (sameResult_symm hread) ⟨_, rfl⟩
  have hsettle : h.settle.1 = .ok () := by decide +kernel
  have hb : injectionFor injections "k" = some ⟨"z", "k"⟩ := by decide
  have hderive : g.derive ⟨0⟩ injections ⟨1⟩ = (d, h) := rfl
  obtain ⟨hd, hvalues⟩ :=
    derive_substitutes { host := () } 2 acts hvalid ⟨0⟩ ⟨1⟩ injections hm hsource d h hderive
  obtain ⟨-, hcopy, halias⟩ := hvalues hrules
  have halias := halias hsettle "k" ⟨"z", "k"⟩ hb
  dsimp only at halias
  exact ⟨hvalid, hm, hsource, hd, hrules, hneeds, ⟨value, hvalue, hcopy "b" value hneeds hvalue⟩, hsettle,
    hb, halias⟩

end Graph

end CellGraph
