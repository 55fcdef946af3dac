import CellGraph.Proofs.Graph.Declarations
import CellGraph.Proofs.Graph.Recording
import CellGraph.Proofs.Graph.Repetition
import Mathlib.Data.List.Forall2

/-!
# Rendering inputs as data

A variable may list its inputs as data. What it lists is what they showed when its rule was run last. Its
stamps see whether an input is still the same value and, if that is a mutable, whether it has been set; they do
not see into the content. So the list is out of date only as far as mutables inside the inputs have been set
since (`AtRest.rendered`).

With a variable that is neither observed nor anonymous and deletes others, it may also be out of date otherwise.
-/

namespace CellGraph

variable {σ : Type}

/-- A body that lists its inputs as data. -/
def Body.Renders (body : Body σ) : Prop :=
  ∀ inputs (world : World σ),
    (body inputs world).result = .ok (.data (.array (inputs.map world.heap.toJson)))

namespace Graph

/-- How a list of data stands to the inputs of a variable and to an earlier world: to read the inputs changes
nothing, each entry is what the input showed then, and the content of an input has not changed since. An entry
is what the input shows now, unless a mutable inside the input has been set. -/
structure Rendered (h : Graph σ) (slot : Slot) (v : Variable σ) (before : World σ) (inputs : List Value)
    (entries : List Json) : Prop where
  reads : ∃ stamps, readInputs (Graph.evaluateWithin h.vars.size [slot]) v h = (stamps, h) ∧
    stamps.map Stamp.result = inputs.map .ok
  shown : List.Forall₂ (fun x entry => entry.same (before.heap.toJson x) = true) inputs entries
  outer : ∀ r, .mutable r ∈ inputs → h.world.heap.content r = before.heap.content r
  current : List.Forall₂ (fun x entry =>
    (∀ s, h.world.heap.Inside x s → h.world.heap.version s = before.heap.version s) →
      entry.same (h.world.heap.toJson x) = true) inputs entries

/-- To read the inputs of a variable at rest gives what is kept for them. -/
theorem AtRest.readInputs_eq {h : Graph σ} (hsound : h.Sound) {slot : Slot} {v : Variable σ}
    (hv : h.vars.get? slot = some v)
    (hreads : ∀ read ∈ v.reads, ∀ next, h.lookup read.1 read.2 = some next → h.AtRest next) :
    readInputs (Graph.evaluateWithin h.vars.size [slot]) v h = (h.keptStamps v.reads, h) := by
  have hlt := unvisited_cons_lt (List.not_mem_nil (a := slot)) hv
  have hnil := hsound.unvisited_nil_le
  rw [Graph.readInputs_eq]
  refine readEach_eq_keptStamps fun read hread next hlookup => ?_
  have hnext : h.DependsOn slot next := ⟨v, read, hv, hread, hlookup⟩
  exact (hreads read hread next hlookup).evaluateWithin ((h.trail_nil slot).cons hnext) (by omega)

theorem AtRest.rendered {held : σ → Nat} {past : List (Firing σ)} {h : Graph σ} (hh : Recorded held past h)
    (hfounded : h.world.heap.Founded) {slot : Slot} (hrest : h.AtRest slot) {v : Variable σ}
    (hv : h.vars.get? slot = some v) {body : Body σ} (hrule : v.rule = .define body) (hbody : body.Renders)
    {value : Value} (hvalue : h.keptResult slot = .ok value) :
    ∃ before inputs entries, Firing.last? slot past = some before ∧ value = .data (.array entries) ∧
      h.Rendered slot v before inputs entries := by
  cases hrest with
  | gone hdead =>
      rw [hv] at hdead
      cases hdead
  | @kept _ w cache hw hcache hsame hreads =>
      rw [hv] at hw
      cases hw
      obtain ⟨before, hlast, hgrounded, htraced⟩ := hh.caches hv hcache
      rw [keptResult_of_cache hv hcache, htraced.result, hrule, Rule.result] at hvalue
      rcases mapM_id_same (Stamp.sameList_results hsame) with ⟨fault, hold, -⟩ | ⟨xs, ys, hold, hnew, hpairs⟩
      · rw [hold] at hvalue
        cases hvalue
      rw [hold] at hvalue
      have hlisted : value = .data (.array (xs.map before.heap.toJson)) :=
        (Except.ok.inj ((hbody xs before).symm.trans hvalue)).symm
      have holds := eq_map_ok_of_mapM_id hold
      -- what was read then was there, and has the content of then
      have hxs : ∀ x ∈ xs, x.Below before.heap.cells.size ∧
          ∀ r, x = .mutable r → h.world.heap.content r = before.heap.content r := by
        intro x hx
        have hmem : .ok x ∈ cache.stamps.map Stamp.result := by
          rw [holds]
          exact List.mem_map_of_mem hx
        obtain ⟨stamp, hstamp, hresult⟩ := List.mem_map.mp hmem
        refine ⟨(htraced.stamps stamp hstamp).below x hresult, ?_⟩
        rintro r rfl
        refine (settled_of_traced htraced hsame (fun stamp hstamp => ?_) hmem).2.2
        obtain ⟨read, -, rfl⟩ := List.mem_map.mp hstamp
        rfl
      have hboth := (List.forall₂_and_left _ _).mpr ⟨hxs, hpairs⟩
      refine ⟨before, ys, _, hlast, hlisted, ⟨_, AtRest.readInputs_eq hh.kept.sound hv hreads,
        eq_map_ok_of_mapM_id hnew⟩, ?_, ?_, ?_⟩
      · rw [List.forall₂_map_right_iff]
        exact (hpairs.imp fun x y hxy => before.heap.toJson_same hxy).flip
      · intro r hr
        obtain ⟨x, hx, hxr⟩ := exists_mem_of_forall₂ hpairs hr
        exact (hxs x hx).2 r (Except.ok.inj (eq_of_sameResult_mutable hxr))
      · rw [List.forall₂_map_right_iff]
        refine (hboth.imp ?_).flip
        rintro x y ⟨⟨hbelow, houter⟩, hxy⟩ hinside
        have hy : y.Below before.heap.cells.size ∧
            ∀ r, y = .mutable r → h.world.heap.content r = before.heap.content r := by
          cases y with
          | mutable r =>
              obtain rfl : x = .mutable r := Except.ok.inj (eq_of_sameResult_mutable hxy)
              exact ⟨hbelow, houter⟩
          | undefined | data _ | intrinsic _ => exact ⟨trivial, fun _ hr => by cases hr⟩
        rw [Heap.toJson_eq_of_unchanged (htraced.effects.trans htraced.later) hgrounded hfounded hy.1 hy.2
          hinside]
        exact before.heap.toJson_same hxy

/-- A list of inputs shows what they showed when its rule was run last, and what they show now but for what is
inside their content. Let any acts with lawful bodies lead to a graph in which only observed and anonymous
variables have bodies that set mutables or delete variables, and let a name whose variable lists its inputs have
a value, with no mutable inside itself afterwards. In the world in which the rule of the variable was last run,
in the course of the read or before, each input had the content that it has now and showed as its entry of the
list. It still does, unless a mutable inside it has been set since. -/
theorem lists_what_inputs_showed (held : σ → Nat) (world : World σ) (maxPasses : Nat)
    (hworld : world.Proper held) (acts : List (Act σ)) (hvalid : Act.ValidAll { world, maxPasses } acts)
    (hbodies : Act.SatisfiesAll (fun g => Body.Lawful held g.world.heap.cells.size)
      { world, maxPasses } acts) :
    let g := Act.applyAll { world, maxPasses } acts
    (∀ slot v, g.vars.get? slot = some v → isRoot v = false → v.rule.Satisfies Body.Quiet) →
      ∀ m name value, (g.value m name).1 = .ok value →
        let h := (g.value m name).2
        h.world.heap.Founded → ∀ slot v body, h.lookup m name = some slot → h.vars.get? slot = some v →
          v.rule = .define body → body.Renders →
            ∃ before inputs entries,
              Firing.last? slot (Act.firingsAll { world, maxPasses } acts ++ g.valueFirings m name) =
                some before ∧
              value = .data (.array entries) ∧ h.Rendered slot v before inputs entries := by
  intro g hothers m name value hvalue h hfounded slot v body hslot hv hrule hbody
  obtain ⟨hok, found, hlookup, hread⟩ := exists_of_value_ok hvalue
  have hg : g.settle.2.Quiescent := (intact_applyAll world maxPasses acts hvalid).quiescent hok hothers
  -- the read has come to rest
  have hevaluated : (g.settle.2.evaluate found).1 = .ok value := by rwa [← hread]
  obtain ⟨-, hrests⟩ := hg.evaluateWithin hg.undisturbed (g.settle.2.trail_nil found) hevaluated
  change g.settle.2.Rests found (g.settle.2.evaluate found) at hrests
  rw [← hread] at hrests
  obtain rfl : found = slot := by
    have hsame : h.lookup m name = some found := (hrests.leaves.alike.lookup m name).trans hlookup
    exact Option.some.inj (hsame.symm.trans hslot)
  -- and the history is that of the acts and of the read
  have hstart : Recorded held [] { world, maxPasses } :=
    ⟨kept_applyAll world maxPasses [] trivial (by simp), hworld, fun hv => by simp [Slots.get?] at hv⟩
  have hrecorded := (hstart.applyAll hvalid hbodies).evaluates (.value m name) trivial
  rw [List.nil_append] at hrecorded
  exact hrests.rest.rendered hrecorded hfounded hv hrule hbody (hrests.result.symm.trans hvalue)

/-! ## Lists that go out of date -/

/-- What holds of the rules of all variables but the observed and the anonymous ones still holds when a variable
has been registered with such a rule. -/
theorem Sound.others_register {Q : Body σ → Prop} {g : Graph σ} (hsound : g.Sound) (slot : Slot)
    (name : Option String) (inputs : List String) {rule : Rule σ} (hrule : rule.Satisfies Q)
    (hg : ∀ slot v, g.vars.get? slot = some v → isRoot v = false → v.rule.Satisfies Q) :
    ∀ other w, ((g.register slot name inputs rule).toOption.getD g).vars.get? other = some w →
      isRoot w = false → w.rule.Satisfies Q := by
  cases hv : g.vars.get? slot with
  | none =>
      rw [register_dead hv]
      exact hg
  | some v =>
      obtain ⟨h, hregister, hregistered⟩ := register_live hsound hv name inputs rule
      rw [hregister]
      intro other w hw hother
      simp only [Except.toOption, Option.getD_some, hregistered.vars, Slots.get?_set] at hw
      split at hw
      · rw [hv, Option.map_some] at hw
        cases hw
        exact hrule
      · exact hg other w hw hother

/-- Sets the mutable that is the first input to the second input. -/
def copying : Body Script.Memory :=
  ((Script.Code.copy (some 1)).instantiate { host := {} }).1

/-- Lists the inputs. -/
def listing : Body Script.Memory :=
  (Script.Code.list.instantiate { host := {} }).1

theorem quiet_listing : listing.Quiet :=
  ⟨fun _ _ => rfl, fun _ world => world.heap.extends_refl⟩

/-- The mutables `0` and `1`. -/
def twoMutables : World Script.Memory :=
  { heap.cells := #[{ content := .data (.ofNat 1), version := 0 }, { content := .data .null, version := 0 }]
    host := {} }

/-- A list of `outer`. Of two anonymous variables, one makes `outer` contain `inner` and the other sets `inner`
to whatever `Generators` is. -/
def boxedEdits : List (Act Script.Memory) :=
  [.op (.edit .newModule),
   .op (.edit (.newVariable ⟨0⟩ none)),
   .op (.edit (.define ⟨0, 0⟩ (some "inner") [] (.constant (.mutable ⟨0⟩)))),
   .op (.edit (.newVariable ⟨0⟩ none)),
   .op (.edit (.define ⟨1, 0⟩ (some "outer") [] (.constant (.mutable ⟨1⟩)))),
   .op (.edit (.newVariable ⟨0⟩ none)),
   .op (.edit (.define ⟨2, 0⟩ (some "Generators") [] (.constant (.data (.ofNat 2))))),
   .op (.edit (.newVariable ⟨0⟩ none)), .op (.edit (.define ⟨3, 0⟩ none ["outer", "inner"] copying)),
   .op (.edit (.newVariable ⟨0⟩ none)), .op (.edit (.define ⟨4, 0⟩ none ["inner", "Generators"] copying)),
   .op (.edit (.newVariable ⟨0⟩ none)), .op (.edit (.define ⟨5, 0⟩ (some "list") ["outer"] listing))]

/-- The list is read, and then `Generators` is deleted, so that the name stands for the built-in value. -/
def boxedActs : List (Act Script.Memory) :=
  boxedEdits ++ [.op (.value ⟨0⟩ "list"), .op (.edit (.delete ⟨2, 0⟩))]

def boxed : Graph Script.Memory :=
  Act.applyAll { world := twoMutables, maxPasses := 4 } boxedActs

theorem boxed_eq : boxed =
    ((Act.applyAll { world := twoMutables, maxPasses := 4 } boxedEdits).value ⟨0⟩ "list").2.delete ⟨2, 0⟩ := by
  simp only [boxed, boxedActs, Act.applyAll, List.foldl_append, List.foldl_cons, List.foldl_nil, Act.apply,
    Op.apply, Edit.apply]

/-- The variables before the first read. -/
theorem vars_boxedEdits : (Act.applyAll { world := twoMutables, maxPasses := 4 } boxedEdits).vars.toList = [
    (⟨0, 0⟩, { home := ⟨0⟩, name := some "inner", rule := .define (.constant (.mutable ⟨0⟩)) }),
    (⟨1, 0⟩, { home := ⟨0⟩, name := some "outer", rule := .define (.constant (.mutable ⟨1⟩)) }),
    (⟨2, 0⟩, { home := ⟨0⟩, name := some "Generators", rule := .define (.constant (.data (.ofNat 2))) }),
    (⟨3, 0⟩, { home := ⟨0⟩, inputs := ["outer", "inner"], rule := .define copying }),
    (⟨4, 0⟩, { home := ⟨0⟩, inputs := ["inner", "Generators"], rule := .define copying }),
    (⟨5, 0⟩, { home := ⟨0⟩, name := some "list", inputs := ["outer"], rule := .define listing })] := by
  refine Act.Declares.toList_vars_start ?_ twoMutables 4 (by decide +kernel)
  repeat constructor

theorem shrinks_boxed : (Act.applyAll { world := twoMutables, maxPasses := 4 } boxedEdits).Shrinks boxed := by
  rw [boxed_eq]
  exact (shrinks_value _ _ _).trans (shrinks_delete _ _)

theorem quiet_boxed :
    ∀ slot v, boxed.vars.get? slot = some v → isRoot v = false → v.rule.Satisfies Body.Quiet := by
  refine shrinks_boxed.others fun slot v hv => ?_
  have hmem := Slots.mem_toList.mpr hv
  rw [vars_boxedEdits] at hmem
  simp only [List.mem_cons, List.not_mem_nil, or_false, Prod.mk.injEq] at hmem
  obtain ⟨-, rfl⟩ | ⟨-, rfl⟩ | ⟨-, rfl⟩ | ⟨-, rfl⟩ | ⟨-, rfl⟩ | ⟨-, rfl⟩ := hmem <;> intro hroot body hbody <;>
    cases hbody
  · exact (Body.functional_constant _).quiet
  · exact (Body.functional_constant _).quiet
  · exact (Body.functional_constant _).quiet
  · cases hroot
  · cases hroot
  · exact quiet_listing

theorem founded_boxed : (boxed.value ⟨0⟩ "list").2.world.heap.Founded :=
  Heap.founded_of_below (by decide +kernel)

theorem exists_rule_boxed :
    ∃ v, (boxed.value ⟨0⟩ "list").2.vars.get? ⟨5, 0⟩ = some v ∧ v.rule = .define listing := by
  have hedits : (Act.applyAll { world := twoMutables, maxPasses := 4 } boxedEdits).vars.get? ⟨5, 0⟩ =
      some { home := ⟨0⟩, name := some "list", inputs := ["outer"], rule := .define listing } :=
    Slots.mem_toList.mp (by simp [vars_boxedEdits])
  have hlive : ((boxed.value ⟨0⟩ "list").2.vars.get? ⟨5, 0⟩).isSome = true := by decide +kernel
  obtain ⟨w, hw⟩ := Option.isSome_iff_exists.mp hlive
  obtain ⟨v, hv, hwv⟩ := shrinks_boxed.trans (shrinks_value boxed ⟨0⟩ "list") _ _ hw
  obtain rfl := Option.some.inj (hedits.symm.trans hv)
  exact ⟨w, hw, Variable.rule_eq_of_bare_eq hwv⟩

theorem lawful_boxed : Act.SatisfiesAll (fun g => Body.Lawful (fun _ => 0) g.world.heap.cells.size)
    { world := twoMutables, maxPasses := 4 } boxedActs := by
  have hcopying : ∀ n, copying.Lawful (fun _ => 0) n :=
    fun n => (Script.Code.lawful (.copy (some 1)) { host := {} }).mono (Nat.zero_le n)
  have hlisting : ∀ n, listing.Lawful (fun _ => 0) n :=
    fun n => (Script.Code.lawful .list { host := {} }).mono (Nat.zero_le n)
  simp only [boxedActs, boxedEdits, List.cons_append, List.nil_append, Act.SatisfiesAll, Act.Satisfies,
    Op.Satisfies, Edit.Satisfies, true_and, and_true]
  refine ⟨?_, ?_, ?_, hcopying _, hcopying _, hlisting _⟩
  · exact Body.lawful_constant _ (by decide +kernel)
  · exact Body.lawful_constant _ (by decide +kernel)
  · exact Body.lawful_constant _ (by decide +kernel)

/-- The list of `outer`, inside which `inner` has been set since: the list is `[2]`, which `inner` was when the
rule was run. -/
theorem lists_what_inputs_showed_boxed :
    let start : Graph Script.Memory := { world := twoMutables, maxPasses := 4 }
    twoMutables.Proper (fun _ => 0) ∧ Act.ValidAll start boxedActs ∧
      Act.SatisfiesAll (fun g => Body.Lawful (fun _ => 0) g.world.heap.cells.size) start boxedActs ∧
      (∀ slot v, boxed.vars.get? slot = some v → isRoot v = false → v.rule.Satisfies Body.Quiet) ∧
      (boxed.value ⟨0⟩ "list").2.world.heap.Founded ∧
      (boxed.value ⟨0⟩ "list").2.lookup ⟨0⟩ "list" = some ⟨5, 0⟩ ∧
      sameResult (boxed.value ⟨0⟩ "list").1 (.ok (.data (.array [.ofNat 2]))) = true ∧
      sameResult ((boxed.value ⟨0⟩ "list").2.value ⟨0⟩ "outer").1 (.ok (.mutable ⟨1⟩)) = true ∧
      (boxed.value ⟨0⟩ "list").2.world.heap.Inside (.mutable ⟨1⟩) ⟨0⟩ ∧
      ∃ v value before inputs entries, (boxed.value ⟨0⟩ "list").2.vars.get? ⟨5, 0⟩ = some v ∧
        v.rule = .define listing ∧ (boxed.value ⟨0⟩ "list").1 = .ok value ∧
        Firing.last? ⟨5, 0⟩ (Act.firingsAll start boxedActs ++ boxed.valueFirings ⟨0⟩ "list") = some before ∧
        before.heap.version ⟨0⟩ < (boxed.value ⟨0⟩ "list").2.world.heap.version ⟨0⟩ ∧
        value = .data (.array entries) ∧
        (boxed.value ⟨0⟩ "list").2.Rendered ⟨5, 0⟩ v before inputs entries := by
  intro start
  have hworld : twoMutables.Proper fun _ => 0 :=
    ⟨Heap.grounded_of_below (by decide +kernel), Nat.zero_le _⟩
  have hvalid : Act.ValidAll start boxedActs := by decide +kernel
  have hlookup : (boxed.value ⟨0⟩ "list").2.lookup ⟨0⟩ "list" = some ⟨5, 0⟩ := by decide +kernel
  have hread : sameResult (boxed.value ⟨0⟩ "list").1 (.ok (.data (.array [.ofNat 2]))) = true := by
    decide +kernel
  obtain ⟨value, hvalue⟩ := ok_of_sameResult (sameResult_symm hread) ⟨_, rfl⟩
  obtain ⟨v, hv, hrule⟩ := exists_rule_boxed
  have hlists := lists_what_inputs_showed (fun _ => 0) twoMutables 4 hworld boxedActs hvalid lawful_boxed
  rw [← boxed] at hlists
  obtain ⟨before, inputs, entries, hlast, hshown⟩ := hlists quiet_boxed ⟨0⟩ "list" value hvalue founded_boxed
    ⟨5, 0⟩ v listing hlookup hv hrule fun _ _ => rfl
  have hinside : (boxed.value ⟨0⟩ "list").2.world.heap.Inside (.mutable ⟨1⟩) ⟨0⟩ :=
    ⟨⟨1⟩, rfl, .single (Except.ok.inj (eq_of_sameResult_mutable (by decide +kernel)))⟩
  -- `inner` is set twice: before the rule is run, and after the variable `Generators` is gone
  have hbefore : before.heap.version ⟨0⟩ = 1 := by
    have hlast' : (Firing.last? ⟨5, 0⟩ (Act.firingsAll start boxedActs ++
        boxed.valueFirings ⟨0⟩ "list")).map (·.heap.version ⟨0⟩) = some 1 := by decide +kernel
    rw [hlast] at hlast'
    exact Option.some.inj hlast'
  have hnow : (boxed.value ⟨0⟩ "list").2.world.heap.version ⟨0⟩ = 2 := by decide +kernel
  exact ⟨hworld, hvalid, lawful_boxed, quiet_boxed, founded_boxed, hlookup, hread, by decide +kernel, hinside,
    v, value, before, inputs, entries, hv, hrule, hvalue, hlast, by omega, hshown⟩

/-- Deletes the variable that the host knows as `shade`. -/
def deleting : Body Script.Memory :=
  ((Script.Code.delete "shade").instantiate { host := {} }).1

/-- The mutable `0`, and a variable that the host knows. -/
def oneMutable : World Script.Memory :=
  { heap.cells := #[{ content := .data .null, version := 0 }]
    host := { handles := [("shade", ⟨1, 0⟩)] } }

/-- A list of `cell`, which an observed variable sets to whatever `Generators` is, and of two other variables,
the second of which reads the observed one. -/
def shadedEdits : List (Act Script.Memory) :=
  [.op (.edit .newModule),
   .op (.edit (.newVariable ⟨0⟩ none)),
   .op (.edit (.define ⟨0, 0⟩ (some "cell") [] (.constant (.mutable ⟨0⟩)))),
   .op (.edit (.newVariable ⟨0⟩ none)),
   .op (.edit (.define ⟨1, 0⟩ (some "Generators") [] (.constant (.data (.ofNat 1))))),
   .op (.edit (.newVariable ⟨0⟩ (some "observer"))),
   .op (.edit (.define ⟨2, 0⟩ (some "setter") ["cell", "Generators"] copying)),
   .op (.edit (.newVariable ⟨0⟩ none)),
   .op (.edit (.define ⟨3, 0⟩ (some "after") ["setter"] (.constant (.data .null)))),
   .op (.edit (.newVariable ⟨0⟩ none)),
   .op (.edit (.define ⟨4, 0⟩ (some "before") [] (.constant (.data (.string "deleted"))))),
   .op (.edit (.newVariable ⟨0⟩ none)),
   .op (.edit (.define ⟨5, 0⟩ (some "list") ["cell", "before", "after"] listing))]

/-- The list is read, and then the first of the two others is made to delete the variable `Generators`. -/
def shadedActs : List (Act Script.Memory) :=
  shadedEdits ++ [.op (.value ⟨0⟩ "list"), .op (.edit (.define ⟨4, 0⟩ (some "before") [] deleting))]

def shaded : Graph Script.Memory :=
  Act.applyAll { world := oneMutable, maxPasses := 4 } shadedActs

theorem vars_shadedEdits : (Act.applyAll { world := oneMutable, maxPasses := 4 } shadedEdits).vars.toList = [
    (⟨0, 0⟩, { home := ⟨0⟩, name := some "cell", rule := .define (.constant (.mutable ⟨0⟩)) }),
    (⟨1, 0⟩, { home := ⟨0⟩, name := some "Generators", rule := .define (.constant (.data (.ofNat 1))) }),
    (⟨2, 0⟩, { home := ⟨0⟩, observer := some "observer", name := some "setter",
               inputs := ["cell", "Generators"], rule := .define copying }),
    (⟨3, 0⟩, { home := ⟨0⟩, name := some "after", inputs := ["setter"],
               rule := .define (.constant (.data .null)) }),
    (⟨4, 0⟩, { home := ⟨0⟩, name := some "before", rule := .define (.constant (.data (.string "deleted"))) }),
    (⟨5, 0⟩, { home := ⟨0⟩, name := some "list", inputs := ["cell", "before", "after"],
               rule := .define listing })] := by
  refine Act.Declares.toList_vars_start ?_ oneMutable 4 (by decide +kernel)
  repeat constructor

/-- Only the observed variable sets a mutable. -/
theorem unset_shaded : ∀ slot v, shaded.vars.get? slot = some v → isRoot v = false →
    v.rule.Satisfies fun body => ∀ inputs world, (body inputs world).world = world := by
  have hsound := (intact_applyAll oneMutable 4 (shadedEdits ++ [.op (.value ⟨0⟩ "list")])
    (by decide +kernel)).kept.sound
  simp only [shaded, shadedActs, Act.applyAll, List.foldl_append, List.foldl_cons, List.foldl_nil] at hsound ⊢
  simp only [Act.apply, Op.apply, Edit.apply] at hsound ⊢
  refine hsound.others_register _ _ _ (fun body hbody => ?_) ((shrinks_value _ _ _).others fun slot v hv => ?_)
  · cases hbody
    exact fun _ _ => rfl
  have hmem := Slots.mem_toList.mpr hv
  have hvars := vars_shadedEdits
  rw [Act.applyAll] at hvars
  rw [hvars] at hmem
  simp only [List.mem_cons, List.not_mem_nil, or_false, Prod.mk.injEq] at hmem
  obtain ⟨-, rfl⟩ | ⟨-, rfl⟩ | ⟨-, rfl⟩ | ⟨-, rfl⟩ | ⟨-, rfl⟩ | ⟨-, rfl⟩ := hmem <;> intro hroot body hbody <;>
    cases hbody
  · exact fun _ _ => rfl
  · exact fun _ _ => rfl
  · cases hroot
  · exact fun _ _ => rfl
  · exact fun _ _ => rfl
  · exact fun _ _ => rfl

/-- A list need not be what the inputs show. In the first graph a mutable inside the input is set after the rule
of the list was run. In the second graph no mutable is inside another: the input itself is set in the course of
the read, after it was looked at, by an observed variable that was at rest until `before` deleted one of its
inputs. -/
theorem list_goes_stale :
    (Act.ValidAll { world := twoMutables, maxPasses := 4 } boxedActs ∧
      (∀ slot v, boxed.vars.get? slot = some v → isRoot v = false → v.rule.Satisfies Body.Quiet) ∧
      (boxed.value ⟨0⟩ "list").2.world.heap.Founded ∧
      sameResult (boxed.value ⟨0⟩ "list").1 (.ok (.data (.array [.ofNat 2]))) = true ∧
      sameResult ((boxed.value ⟨0⟩ "list").2.value ⟨0⟩ "outer").1 (.ok (.mutable ⟨1⟩)) = true ∧
      ((boxed.value ⟨0⟩ "list").2.world.heap.toJson (.mutable ⟨1⟩)).same (.string "[Generators]") = true) ∧
    (Act.ValidAll { world := oneMutable, maxPasses := 4 } shadedActs ∧
      (∀ slot v, shaded.vars.get? slot = some v → isRoot v = false →
        v.rule.Satisfies fun body => ∀ inputs world, (body inputs world).world = world) ∧
      (shaded.value ⟨0⟩ "list").2.world.heap.Founded ∧
      sameResult (shaded.value ⟨0⟩ "list").1
        (.ok (.data (.array [.ofNat 1, .string "deleted", .null]))) = true ∧
      sameResult ((shaded.value ⟨0⟩ "list").2.value ⟨0⟩ "cell").1 (.ok (.mutable ⟨0⟩)) = true ∧
      ((shaded.value ⟨0⟩ "list").2.world.heap.toJson (.mutable ⟨0⟩)).same (.string "[Generators]") = true) :=
  ⟨⟨by decide +kernel, quiet_boxed, founded_boxed, by decide +kernel, by decide +kernel, by decide +kernel⟩,
    by decide +kernel, unset_shaded, Heap.founded_of_below (by decide +kernel), by decide +kernel,
    by decide +kernel, by decide +kernel⟩

end Graph

end CellGraph
