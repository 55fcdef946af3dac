import CellGraph.Proofs.Graph.Assignment
import CellGraph.Proofs.Graph.Declarations

/-!
# Mutables across modules

A mutable that is declared in one module can be imported by a second one, from there by a third, and so
on. Each of them sees the same mutable and its current value, under names of its own. What one variable at
the far end assigns reaches all of them (`assignment_reaches_importers`), in whatever order the variables
were registered and whatever has been read before.
-/

namespace CellGraph.Graph

variable {σ : Type}

/-- The module has a variable for the cell: under its name, with its references as inputs and with the
body that the cell compiles to. -/
def HasCell [Text.IdentifierTable] (g : Graph σ) (instantiate : Instantiate σ) (m : ModuleId)
    (cell : ValueCell) : Prop :=
  ∃ name slot v body before after, cell.name = some name ∧ g.lookup m name = some slot ∧
    g.vars.get? slot = some v ∧ v.inputs = cell.references ∧ v.rule = .define body ∧
    compileCell instantiate cell before = (.ok body, after)

/-- The module imports a name from another one. -/
def Imports (g : Graph σ) (m : ModuleId) (binding : Binding) (source : ModuleId) : Prop :=
  ∃ slot v, g.lookup m binding.newName = some slot ∧ g.vars.get? slot = some v ∧
    v.rule = .importing binding.name source

/-- The first module has the three cells of a mutable, and each later one imports the mutable and its
current value from the one before. -/
structure Relays [Text.IdentifierTable] (g : Graph σ) (instantiate : Instantiate σ)
    (e : Extraction.Extracted) (k : Nat) (m : Nat → ModuleId) (name : Nat → String) : Prop where
  declared : ∀ cell ∈ Extraction.desugar (.mutable (name 0)) e, g.HasCell instantiate (m 0) cell
  mutables : ∀ i < k, g.Imports (m (i + 1)) ⟨"mutable " ++ name i, "mutable " ++ name (i + 1)⟩ (m i)
  values : ∀ i < k, g.Imports (m (i + 1)) ⟨name i, name (i + 1)⟩ (m i)

/-- The variable is anonymous, takes one name of its module, and sets the mutable that it is given. -/
def SetsInput (g : Graph σ) (slot : Slot) (m : ModuleId) (input : String) (w : Json) : Prop :=
  ∃ v body, g.vars.get? slot = some v ∧ v.home = m ∧ v.name = none ∧ v.inputs = [input] ∧
    v.rule = .define body ∧ Body.Sets w body

/-- Along a chain of imports, every module has a variable that hands on the origin. -/
theorem hands_of_imports {g : Graph σ} {origin : Slot} {k : Nat} {m : Nat → ModuleId}
    {name : Nat → String} (horigin : g.lookup (m 0) (name 0) = some origin)
    (himports : ∀ i < k, g.Imports (m (i + 1)) ⟨name i, name (i + 1)⟩ (m i)) {i : Nat} (hi : i ≤ k) :
    ∃ slot, g.lookup (m i) (name i) = some slot ∧ g.Hands origin slot := by
  induction i with
  | zero => exact ⟨origin, horigin, .origin⟩
  | succ i ih =>
      obtain ⟨next, hnext, hhands⟩ := ih (by omega)
      obtain ⟨slot, v, hlookup, hv, hrule⟩ := himports i (by omega)
      exact ⟨slot, hlookup, .importing hv hrule hnext hhands⟩

/-- The cell of a helper has the helper's native body, and reads its references in its module. -/
theorem HasCell.helper [Text.IdentifierTable] {g : Graph σ} (hg : g.Sound)
    {instantiate : Instantiate σ} {m : ModuleId} {h : Extraction.Helper} {base name : String}
    {references : List String} (hcell : g.HasCell instantiate m (Extraction.helperCell name references h base))
    (hopen : '(' ∉ base.toList) (hcount : h.parameters.length = references.length) :
    ∃ slot v, g.lookup m name = some slot ∧ g.vars.get? slot = some v ∧ v.name = some name ∧
      v.rule = .define h.native ∧ v.reads = references.map fun reference => (m, reference) := by
  obtain ⟨own, slot, v, body, before, after, hown, hlookup, hv, hinputs, hrule, hbody⟩ := hcell
  obtain rfl : name = own := Option.some.inj hown
  rw [Extraction.compileCell_helperCell instantiate h hopen name references hcount] at hbody
  cases hbody
  obtain ⟨w, hw, hhome, hname⟩ := hg.named hlookup
  rw [hv] at hw
  cases hw
  refine ⟨slot, v, hlookup, hv, hname, hrule, ?_⟩
  rw [Variable.reads, hrule]
  simp only [hinputs, hhome]
  rfl

/-- A graph without cycles that has not been evaluated is orderly if its bodies set at most one mutable
and are otherwise quiet. -/
theorem orderly_of_quiet {g : Graph σ} {setter : Slot} {m : ModuleId} {input : String} {w : Json}
    (hsound : g.Sound) (hblank : g.Blank) (hsets : g.SetsInput setter m input w)
    (hquiet : ∀ slot u, g.vars.get? slot = some u → slot ≠ setter → u.rule.Satisfies Body.Quiet)
    (hacyclic : ∀ slot, g.AcyclicFrom slot) : g.Orderly := by
  refine ⟨⟨hsound, fun {slot u} hu own hown => ?_, fun hu hcache => ?_⟩,
    fun slot => hacyclic slot slot .refl⟩
  · by_cases hslot : slot = setter
    · obtain ⟨s, body, hs, -, -, -, hrule, hbody⟩ := hsets
      rw [hslot, hs] at hu
      cases hu
      rw [hrule] at hown
      cases hown
      exact hbody.lasting
    · exact (hquiet slot u hu hslot own hown).lasting
  · rw [hblank hu] at hcache
    cases hcache

/-- The mutable of a relay, its current value and a variable that sets what the last module imports are
an assignment. -/
theorem Relays.assigns [Text.IdentifierTable] {g : Graph σ} {instantiate : Instantiate σ}
    {e : Extraction.Extracted} {k : Nat} {m : Nat → ModuleId} {name : Nat → String}
    (hrelays : g.Relays instantiate e k m name) {v w : Json} {setter : Slot} (hsound : g.Sound) (hblank : g.Blank)
    (hopen : '(' ∉ (name 0).toList) (hbuiltin : g.lookup (m 0) Intrinsic.mutable.name = none)
    (hinitial : ∀ initial, g.lookup (m 0) ("mutable initial " ++ name 0) = some initial →
      ∀ slots, ((g.evaluateAll slots).evaluate initial).1 = .ok (.data v))
    (hsets : g.SetsInput setter (m k) ("mutable " ++ name k) w)
    (hquiet : ∀ slot u, g.vars.get? slot = some u → slot ≠ setter → u.rule.Satisfies Body.Quiet)
    (hacyclic : ∀ slot, g.AcyclicFrom slot) :
    ∃ wrapper value, g.Assigns ⟨wrapper, value, setter, v, w⟩ ∧
      g.lookup (m 0) ("mutable " ++ name 0) = some wrapper ∧ g.lookup (m 0) (name 0) = some value := by
  obtain ⟨own, initial, -, -, -, -, hown, hfirst, -⟩ := hrelays.declared _ List.mem_cons_self
  obtain rfl : "mutable initial " ++ name 0 = own := Option.some.inj hown
  obtain ⟨wrapper, u, hwrapper, hu, -, hurule, hureads⟩ := HasCell.helper hsound
    (hrelays.declared _ (List.mem_cons_of_mem _ List.mem_cons_self)) hopen rfl
  obtain ⟨value, t, hvalue, ht, htname, htrule, htreads⟩ := HasCell.helper hsound
    (hrelays.declared _ (List.mem_cons_of_mem _ (List.mem_cons_of_mem _ List.mem_cons_self))) hopen rfl
  obtain ⟨s, body, hs, hhome, hsname, hinputs, hsrule, hbody⟩ := id hsets
  obtain ⟨source, hsource, hhands⟩ := hands_of_imports hwrapper hrelays.mutables (Nat.le_refl k)
  have hne : setter ≠ value := by
    rintro rfl
    rw [ht] at hs
    cases hs
    rw [htname] at hsname
    cases hsname
  refine ⟨wrapper, value, ?_, hwrapper, hvalue⟩
  exact {
    orderly := orderly_of_quiet hsound hblank hsets hquiet hacyclic
    blank := hblank
    wrapper := ⟨u, m 0, _, initial, hu, hurule, hureads, hbuiltin, hfirst, hinitial initial hfirst⟩
    value := ⟨t, _, ht, htrule, htreads, hwrapper⟩
    setter := by
      refine ⟨s, body, (m k, "mutable " ++ name k), source, hs, hsrule, hbody, ?_, hsource, hhands⟩
      rw [Variable.reads, hsrule, hinputs, hhome]
      rfl
    setter_ne_value := hne
    quiet := fun hx hne => hquiet _ _ hx hne }

/-- Assignment through a mutable reaches every module that imports it. The graph may come from any
operations, in any order and with any observers. The first module declares a mutable with the value `v`,
each later one imports it from the one before, and an anonymous variable of the last one sets it to `w`;
no other body sets a mutable, none deletes anything, and there is no cycle. Then there is one mutable, the
same for all reads whatever was settled or read earlier: each module has it, its current value is `w`
everywhere, and it has changed once if `v` differs from `w` and never otherwise. -/
theorem assignment_reaches_importers [Text.IdentifierTable] (world : World σ) (maxPasses : Nat)
    (edits : List (Edit σ)) (hvalid : Edit.ValidAll { world, maxPasses } edits) (instantiate : Instantiate σ)
    (e : Extraction.Extracted) (k : Nat) (m : Nat → ModuleId) (name : Nat → String) (v w : Json)
    (setter : Slot) :
    let g := Edit.applyAll { world, maxPasses } edits
    3 ≤ g.maxPasses → '(' ∉ (name 0).toList → g.lookup (m 0) Intrinsic.mutable.name = none →
      g.Relays instantiate e k m name →
      (∀ initial, g.lookup (m 0) ("mutable initial " ++ name 0) = some initial →
        ∀ slots, ((g.evaluateAll slots).evaluate initial).1 = .ok (.data v)) →
      g.SetsInput setter (m k) ("mutable " ++ name k) w →
      (∀ slot u, g.vars.get? slot = some u → slot ≠ setter → u.rule.Satisfies Body.Quiet) →
      (∀ slot, g.AcyclicFrom slot) →
      ∃ r, ∀ earlier : List (Op σ), (∀ op ∈ earlier, op.Evaluates) →
        let h := Op.applyAll g earlier
        ∀ i ≤ k, sameResult (h.value (m i) (name i)).1 (.ok (.data w)) = true ∧
          (h.value (m i) (name i)).2.world.heap.version r = (if v.same w then 0 else 1) ∧
          (h.value (m i) ("mutable " ++ name i)).1 = .ok (.mutable r) := by
  intro g hpasses hopen hbuiltin hrelays hinitial hsets hquiet hacyclic
  obtain ⟨hsound, hblank⟩ : g.Sound ∧ g.Blank := blank_applyAll world maxPasses edits hvalid
  obtain ⟨wrapper, value, hassigns, hwrapper, hvalue⟩ :=
    hrelays.assigns hsound hblank hopen hbuiltin hinitial hsets hquiet hacyclic
  have hroot : setter ∈ g.roots := by
    obtain ⟨s, body, hs, -, hname, -⟩ := hsets
    exact mem_roots.mpr ⟨s, hs, by simp [isRoot, hname]⟩
  obtain ⟨r, hpass⟩ := hassigns.done_pass hroot
  refine ⟨r, fun earlier hearlier => ?_⟩
  intro h i hi
  have hh := hassigns.done_applyAll hpasses hpass (Or.inl rfl) earlier hearlier
  obtain ⟨hok, hdone⟩ := hassigns.settle hpasses hpass hh
  have halike := (hdone.reached.orderly hassigns.orderly).2
  obtain ⟨mutable, hmutable, hmutable'⟩ := hands_of_imports hwrapper hrelays.mutables hi
  obtain ⟨current, hcurrent, hcurrent'⟩ := hands_of_imports hvalue hrelays.values hi
  rw [value_of_settle hok ((halike.lookup _ _).trans hcurrent),
    value_of_settle hok ((halike.lookup _ _).trans hmutable)]
  have hafter := (hassigns.done_evaluate hdone current).1
  refine ⟨hassigns.evaluate_hands hcurrent' hdone, hafter.version, ?_⟩
  obtain ⟨r', hmade', hresult⟩ := (hassigns.behaves mutable hdone.reached).2 hmutable'
  rw [hresult, (hassigns.done_evaluate hdone mutable).1.made.eq hmade']

/-- A constant without inputs evaluates to itself, whatever has been evaluated. -/
theorem Orderly.evaluate_constant {g : Graph σ} (hg : g.Orderly) {slot : Slot} {v : Variable σ}
    {value : Value} (hv : g.vars.get? slot = some v) (hrule : v.rule = .define (.constant value))
    (hreads : v.reads = []) : (g.evaluate slot).1 = .ok value := by
  have hmid := (hg.readings v.reads).1
  obtain ⟨w, hw, hwv, hcases⟩ := hg.evaluate_cases (alike_refl g) hv
  have hrule' := (Variable.rule_eq_of_bare_eq hwv).trans hrule
  rw [hreads, readings_nil] at hcases hw hmid
  rcases hcases with ⟨cache, hcache, hsame, heval⟩ | ⟨-, hran⟩
  · obtain ⟨world, hresult⟩ := hmid.kept.caches hw hcache
    have hstamps : cache.stamps.map Stamp.result = [] :=
      List.forall₂_nil_right_iff.mp (Stamp.sameList_results hsame)
    rw [heval, hresult, hrule', hstamps]
    rfl
  · rw [hran.result, hrule']
    rfl

/-- Two modules, registered back to front. The second one has an observed variable that reads the current
value before it is set. -/
theorem assignment_reaches_importers_two_modules :
    let start : Graph Unit := { world := { host := () }, maxPasses := 3 }
    let edits : List (Edit Unit) := [.newModule, .newModule,
      .newVariable ⟨1⟩ (some "watch"), .define ⟨0, 0⟩ none ["y"] .first,
      .newVariable ⟨1⟩ none, .define ⟨1, 0⟩ none ["mutable y"] (.setting (.bool true)),
      .newVariable ⟨1⟩ none, .importing ⟨2, 0⟩ "x" "y" ⟨0⟩,
      .newVariable ⟨1⟩ none, .importing ⟨3, 0⟩ "mutable x" "mutable y" ⟨0⟩,
      .newVariable ⟨0⟩ none, .define ⟨4, 0⟩ (some "x") ["mutable x"] .mutableValue,
      .newVariable ⟨0⟩ none,
      .define ⟨5, 0⟩ (some "mutable x") ["Mutable", "mutable initial x"] .mutableWrapper,
      .newVariable ⟨0⟩ none, .define ⟨6, 0⟩ (some "mutable initial x") [] (.constant (.data .null))]
    let instantiate : Instantiate Unit := fun _ _ world => (.ok (.constant (.data .null)), world)
    let e : Extraction.Extracted :=
      { references := [], parameters := [], code := "function x() \x7b return null; \x7d", constants := none }
    let m : Nat → ModuleId := fun i => ⟨i⟩
    let name : Nat → String := fun i => if i = 0 then "x" else "y"
    let g := Edit.applyAll start edits
    Edit.ValidAll start edits ∧ 3 ≤ g.maxPasses ∧ '(' ∉ (name 0).toList ∧
      g.lookup (m 0) Intrinsic.mutable.name = none ∧ g.Relays instantiate e 1 m name ∧
      (∀ initial, g.lookup (m 0) ("mutable initial " ++ name 0) = some initial →
        ∀ slots, ((g.evaluateAll slots).evaluate initial).1 = .ok (.data .null)) ∧
      g.SetsInput ⟨1, 0⟩ (m 1) ("mutable " ++ name 1) (.bool true) ∧
      (∀ slot u, g.vars.get? slot = some u → slot ≠ ⟨1, 0⟩ → u.rule.Satisfies Body.Quiet) ∧
      (∀ slot, g.AcyclicFrom slot) ∧
      ∃ r, let h := Op.applyAll g [.value ⟨0⟩ "x"]
        sameResult (h.value (m 1) (name 1)).1 (.ok (.data (.bool true))) = true ∧
          (h.value (m 1) (name 1)).2.world.heap.version r = 1 ∧
          (h.value (m 1) ("mutable " ++ name 1)).1 = .ok (.mutable r) := by
  intro start edits instantiate e m name g
  have hvalid : Edit.ValidAll start edits := by decide +kernel
  have hpasses : 3 ≤ g.maxPasses := by decide +kernel
  have hopen : '(' ∉ (name 0).toList := by decide
  have hbuiltin : g.lookup (m 0) Intrinsic.mutable.name = none := by decide +kernel
  have hvars : g.vars.toList = [
      (⟨0, 0⟩, { home := ⟨1⟩, inputs := ["y"], rule := .define .first, observer := some "watch" }),
      (⟨1, 0⟩, { home := ⟨1⟩, inputs := ["mutable y"], rule := .define (.setting (.bool true)) }),
      (⟨2, 0⟩, { home := ⟨1⟩, name := some "y", rule := .importing "x" ⟨0⟩ }),
      (⟨3, 0⟩, { home := ⟨1⟩, name := some "mutable y", rule := .importing "mutable x" ⟨0⟩ }),
      (⟨4, 0⟩, { home := ⟨0⟩, name := some "x", inputs := ["mutable x"], rule := .define .mutableValue }),
      (⟨5, 0⟩, { home := ⟨0⟩, name := some "mutable x", rule := .define .mutableWrapper,
                 inputs := ["Mutable", "mutable initial x"] }),
      (⟨6, 0⟩, { home := ⟨0⟩, name := some "mutable initial x",
                 rule := .define (.constant (.data .null)) })] := by
    simp only [g, ← Act.applyAll_edits]
    refine Act.Declares.toList_vars_start ?_ { host := () } 3 (by decide +kernel)
    repeat constructor
  have hget : ∀ place ∈ g.vars.toList, g.vars.get? place.1 = some place.2 := fun place hplace =>
    Slots.mem_toList.mp hplace
  simp only [hvars, List.forall_mem_cons] at hget
  obtain ⟨-, hsetter, hy, hmutableY, hx, hmutableX, hinitialX, -⟩ := hget
  have hinitial : compileCell instantiate ⟨some ("mutable initial " ++ name 0), [], e.code, none⟩
      start.world = (.ok (.constant (.data .null)), start.world) := by
    have hparse : FunctionText.parse? e.code =
        some ⟨.plain, "x", [], "\x7b return null; \x7d"⟩ := by decide +kernel
    have hother : Extraction.Helper.recognize? ⟨.plain, "x", [], "\x7b return null; \x7d"⟩ = none := by
      decide +kernel
    simp only [compileCell, hparse, hother]
    rfl
  have hwrapper := Extraction.compileCell_helperCell instantiate .mutableWrapper hopen
    ("mutable " ++ name 0) ["Mutable", "mutable initial " ++ name 0] rfl start.world
  have hvalue := Extraction.compileCell_helperCell instantiate .mutableValue hopen (name 0)
    ["mutable " ++ name 0] rfl start.world
  have hmutable : "mutable x" = "mutable " ++ name 0 := by decide +kernel
  have hrelays : g.Relays instantiate e 1 m name := by
    refine ⟨?_, fun i hi => ?_, fun i hi => ?_⟩
    · simp only [Extraction.desugar, List.forall_mem_cons]
      refine ⟨⟨_, ⟨6, 0⟩, _, _, start.world, _, rfl, ?_, hinitialX, rfl, rfl, hinitial⟩,
        ⟨_, ⟨5, 0⟩, _, _, start.world, _, rfl, ?_, hmutableX, ?_, rfl, hwrapper⟩,
        ⟨_, ⟨4, 0⟩, _, _, start.world, _, rfl, ?_, hx, ?_, rfl, hvalue⟩, by simp⟩ <;> decide +kernel
    · obtain rfl : i = 0 := by omega
      exact ⟨⟨3, 0⟩, _, by decide +kernel, hmutableY, congrArg (Rule.importing · ⟨0⟩) hmutable⟩
    · obtain rfl : i = 0 := by omega
      exact ⟨⟨2, 0⟩, _, by decide +kernel, hy, rfl⟩
  have hsets : g.SetsInput ⟨1, 0⟩ (m 1) ("mutable " ++ name 1) (.bool true) :=
    ⟨_, _, hsetter, rfl, rfl, by decide +kernel, rfl, Body.sets_setting _⟩
  have hquiet : ∀ slot u, g.vars.get? slot = some u → slot ≠ ⟨1, 0⟩ → u.rule.Satisfies Body.Quiet := by
    have hall : ∀ place ∈ g.vars.toList, place.1 ≠ ⟨1, 0⟩ → place.2.rule.Satisfies Body.Quiet := by
      simp only [hvars, List.forall_mem_cons]
      refine ⟨?_, fun hne => absurd rfl hne, ?_, ?_, ?_, ?_, ?_, by simp⟩
      all_goals rintro - body ⟨⟩
      · exact Body.functional_first.quiet
      · exact Body.quiet_mutableValue
      · exact Body.quiet_mutableWrapper
      · exact (Body.functional_constant _).quiet
    exact fun slot u hu => hall (slot, u) (Slots.mem_toList.mpr hu)
  have hacyclic : ∀ slot, g.AcyclicFrom slot :=
    acyclicFrom_of_rank (fun slot => 6 - slot.index) (by decide +kernel)
  have hconstant : ∀ initial, g.lookup (m 0) ("mutable initial " ++ name 0) = some initial →
      ∀ slots, ((g.evaluateAll slots).evaluate initial).1 = .ok (.data .null) := by
    intro initial hlookup slots
    have hown : g.lookup (m 0) ("mutable initial " ++ name 0) = some ⟨6, 0⟩ := by decide +kernel
    obtain rfl : ⟨6, 0⟩ = initial := Option.some.inj (hown.symm.trans hlookup)
    obtain ⟨hsound, hblank⟩ := blank_applyAll start.world 3 edits hvalid
    obtain ⟨hlater, halike⟩ :=
      (orderly_of_quiet hsound hblank hsets hquiet hacyclic).evaluateAll slots
    obtain ⟨u, hu, huv⟩ := halike.exists_of_get? hinitialX
    exact hlater.evaluate_constant hu (Variable.rule_eq_of_bare_eq huv) (Variable.reads_eq_of_bare_eq huv)
  obtain ⟨r, hreaches⟩ := assignment_reaches_importers { host := () } 3 edits hvalid instantiate e 1 m
    name .null (.bool true) ⟨1, 0⟩ hpasses hopen hbuiltin hrelays hconstant hsets hquiet hacyclic
  obtain ⟨hsame, hversion, hsource⟩ :=
    hreaches [.value ⟨0⟩ "x"] (by simp [Op.Evaluates]) 1 (Nat.le_refl 1)
  have hdiffers : Json.same .null (.bool true) = false := by decide +kernel
  simp only [hdiffers, Bool.false_eq_true, if_false] at hversion
  refine ⟨hvalid, hpasses, hopen, hbuiltin, hrelays, hconstant, hsets, hquiet, hacyclic, r, hsame, ?_,
    hsource⟩
  simp only [g, start]
  exact hversion

end CellGraph.Graph
