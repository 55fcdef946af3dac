import CellGraph.Proofs.Graph.Copies
import CellGraph.Proofs.Graph.Frame

/-!
# Acts of a host

A host operates on a graph, and between two operations it may set a mutable that it has got hold of. A
run of such acts may bring in any bodies. Whatever these do, the graph that it leads to is intact
(`Intact`): names lead where they should, what is kept was made by the rule of its variable, a variable
without a rule reads nothing, and an import reads from a module that exists.
-/

namespace CellGraph

variable {σ : Type}

/-- A value that is not one of the mutables from place `n` on. -/
def Value.Below (n : Nat) : Value → Prop
  | .mutable r => r.index < n
  | _ => True

instance (n : Nat) : DecidablePred (Value.Below n)
  | .mutable r => inferInstanceAs (Decidable (r.index < n))
  | .undefined | .data _ | .intrinsic _ => isTrue trivial

/-- What a host does: an operation on the graph, or an assignment to a mutable. -/
inductive Act (σ : Type) where
  | op (op : Op σ)
  | assign (r : Ref) (value : Value)

namespace Act

/-- The graph after an act. -/
def apply (g : Graph σ) : Act σ → Graph σ
  | op o => o.apply g
  | assign r value => { g with world := { g.world with heap := (g.world.heap.assign r value).2 } }

/-- The modules and mutables that an act names were made before. -/
def Valid (g : Graph σ) : Act σ → Prop
  | op o => o.Valid g
  | assign r value =>
    r.index < g.world.heap.cells.size ∧ value.Below g.world.heap.cells.size

instance (g : Graph σ) : DecidablePred (Valid g)
  | op o => inferInstanceAs (Decidable (o.Valid g))
  | assign r value => inferInstanceAs
      (Decidable (r.index < g.world.heap.cells.size ∧ value.Below g.world.heap.cells.size))

/-- The graph after acts, one after the other. -/
def applyAll (g : Graph σ) (acts : List (Act σ)) : Graph σ :=
  acts.foldl apply g

/-- Each act is valid in the graph that it is applied to. -/
def ValidAll (g : Graph σ) : List (Act σ) → Prop
  | [] => True
  | act :: acts => act.Valid g ∧ ValidAll (act.apply g) acts

instance decidableValidAll : (g : Graph σ) → (acts : List (Act σ)) → Decidable (ValidAll g acts)
  | _, [] => isTrue trivial
  | g, act :: acts => @instDecidableAnd _ _ _ (decidableValidAll (act.apply g) acts)

/-- The body that an act brings in, if any, satisfies a predicate. -/
def Satisfies (Q : Body σ → Prop) : Act σ → Prop
  | op o => o.Satisfies Q
  | assign _ _ => True

/-- The bodies that acts bring in satisfy a predicate of the graph that each act is applied to. -/
def SatisfiesAll (Q : Graph σ → Body σ → Prop) (g : Graph σ) : List (Act σ) → Prop
  | [] => True
  | act :: acts => act.Satisfies (Q g) ∧ SatisfiesAll Q (act.apply g) acts

/-- A predicate that every operation and every assignment keeps holds after every run of acts. -/
theorem invariant {P : Graph σ → Prop} {Q : Body σ → Prop}
    (hop : ∀ {g : Graph σ} {op : Op σ}, P g → op.Valid g → op.Satisfies Q → P (op.apply g))
    (hassign : ∀ {g : Graph σ} {r : Ref} {value : Value}, P g → (assign r value).Valid g →
      P ((assign r value).apply g))
    (acts : List (Act σ)) {g : Graph σ} (hg : P g) (hvalid : ValidAll g acts)
    (hbodies : ∀ act ∈ acts, act.Satisfies Q) : P (applyAll g acts) := by
  induction acts generalizing g with
  | nil => exact hg
  | cons act acts ih =>
      rw [List.forall_mem_cons] at hbodies
      refine ih ?_ hvalid.2 hbodies.2
      cases act with
      | op op => exact hop hg hvalid.1 hbodies.1
      | assign r value => exact hassign hg hvalid.1

/-- An act may bring in any body. -/
theorem satisfies_true (act : Act σ) : act.Satisfies fun _ => True := by
  rcases act with ((_ | _ | _ | _ | _ | _) | _ | _) | _ <;> trivial

end Act

/-- A rule with inputs that it may have in a graph: without a rule there are none, and an import has a
source. -/
def Rule.Fits (g : Graph σ) (inputs : List String) : Rule σ → Prop
  | .undefined => inputs = []
  | .importing _ source => g.HasModule source
  | .define _ => True

namespace Graph

/-! ## What evaluation leaves alone -/

section Invariants

variable {P : Graph σ → Prop} (hdelete : ∀ {g : Graph σ} (slot : Slot), P g → P (g.delete slot))
  (hworld : ∀ {g : Graph σ} (world : World σ), P g → P { g with world })
  (hruns : ∀ {g : Graph σ} (runs : Nat), P g → P { g with runs })
  (hcache : ∀ {g : Graph σ} {slot : Slot} {v : Variable σ} (cache : Option Cache) (log : List Notice),
    g.vars.get? slot = some v → P g → P { g with vars := g.vars.set slot { v with cache }, log })
include hdelete hworld hruns hcache

/-- What deletions keep, and what does not depend on the world, the count, the log or what is kept, a
conclusion keeps. -/
theorem conclude_invariant {g : Graph σ} (hg : P g) (slot : Slot) (rule : Rule σ) (stamps : List Stamp) :
    P (g.conclude slot rule stamps).2 := by
  cases hcached : g.cached? slot stamps with
  | some result => rwa [conclude_hit hcached]
  | none =>
      have hrun := run_invariant hdelete hworld (hruns (g.runs + 1) hg) rule stamps
      rw [conclude_miss hcached]
      cases hv : (g.run rule stamps).2.vars.get? slot with
      | none => rwa [keep_dead hv]
      | some v =>
          obtain ⟨log, hkeep⟩ := keep_live hv stamps (g.run rule stamps).1
          rw [hkeep]
          exact hcache _ log hv hrun

/-- So does an evaluation. -/
theorem evaluateWithin_invariant {g : Graph σ} (hg : P g) (depth : Nat) (path : List Slot) (slot : Slot) :
    P (evaluateWithin depth path slot g).2 := by
  refine evaluateWithin_rel (R := fun g h => P g → P h) (fun _ hg => hg) (fun h₁₂ h₂₃ hg => h₂₃ (h₁₂ hg))
    ?_ depth path slot g hg
  intro g₀ g s v stamps _ hstep hg₀
  exact conclude_invariant hdelete hworld hruns hcache (hstep hg₀) s v.rule stamps

end Invariants

theorem hasModule_evaluateWithin (depth : Nat) (path : List Slot) (slot : Slot) (g : Graph σ)
    (m : ModuleId) : (evaluateWithin depth path slot g).2.HasModule m ↔ g.HasModule m := by
  refine evaluateWithin_invariant (P := fun h => h.HasModule m ↔ g.HasModule m) ?_ (fun _ hh => hh)
    (fun _ hh => hh) (fun _ _ _ hh => hh) Iff.rfl depth path slot
  intro h s hh
  exact (hasModule_delete h s m).trans hh

theorem delete_maxPasses (g : Graph σ) (slot : Slot) : (g.delete slot).maxPasses = g.maxPasses := by
  cases hv : g.vars.get? slot with
  | none => rw [delete_dead hv]
  | some v =>
      rw [delete_live hv, releaseName]
      cases v.name <;> rfl

theorem maxPasses_evaluateWithin (depth : Nat) (path : List Slot) (slot : Slot) (g : Graph σ) :
    (evaluateWithin depth path slot g).2.maxPasses = g.maxPasses := by
  refine evaluateWithin_invariant (P := fun h => h.maxPasses = g.maxPasses) ?_ (fun _ hh => hh)
    (fun _ hh => hh) (fun _ _ _ hh => hh) rfl depth path slot
  intro h s hh
  rwa [delete_maxPasses]

theorem maxPasses_settle (g : Graph σ) : g.settle.2.maxPasses = g.maxPasses :=
  settleWithin_invariant (P := fun h => h.maxPasses = g.maxPasses)
    (fun depth path slot hh => (maxPasses_evaluateWithin depth path slot _).trans hh) g.maxPasses rfl

theorem shrinks_evaluateWithin (depth : Nat) (path : List Slot) (slot : Slot) (g : Graph σ) :
    g.Shrinks (evaluateWithin depth path slot g).2 := by
  refine evaluateWithin_rel (R := Shrinks) shrinks_refl Shrinks.trans ?_ depth path slot g
  intro g₀ g s v stamps _ hg
  exact hg.trans (shrinks_conclude g s v.rule stamps)

theorem shrinks_readEach (depth : Nat) (path : List Slot) (reads : List (ModuleId × String))
    (g : Graph σ) : g.Shrinks (readEach (evaluateWithin depth path) reads g).2 :=
  readEach_rel shrinks_refl Shrinks.trans (shrinks_evaluateWithin depth path) reads g

theorem shrinks_settle (g : Graph σ) : g.Shrinks g.settle.2 :=
  settleWithin_invariant (P := g.Shrinks)
    (fun depth path slot hh => hh.trans (shrinks_evaluateWithin depth path slot _)) g.maxPasses
    (shrinks_refl g)

theorem shrinks_value (g : Graph σ) (m : ModuleId) (name : String) : g.Shrinks (g.value m name).2 :=
  value_invariant (P := g.Shrinks)
    (fun depth path slot hh => hh.trans (shrinks_evaluateWithin depth path slot _)) m name (shrinks_refl g)

/-! ## Rules that fit -/

/-- Every variable has a rule that fits its inputs. -/
def Wired (g : Graph σ) : Prop :=
  ∀ slot v, g.vars.get? slot = some v → v.rule.Fits g v.inputs

theorem fits_of_hasModule {g h : Graph σ} (hmodules : ∀ m, g.HasModule m → h.HasModule m)
    {inputs : List String} {rule : Rule σ} (hrule : rule.Fits g inputs) : rule.Fits h inputs := by
  cases rule with
  | undefined => exact hrule
  | define body => trivial
  | importing name source => exact hmodules source hrule

/-- Where modules stay, variables that have the rules and inputs of before fit, and so do new ones that are
given rules that fit. -/
theorem Wired.of_vars {g h : Graph σ} (hg : g.Wired) (hmodules : ∀ m, g.HasModule m → h.HasModule m)
    (hvars : ∀ slot w, h.vars.get? slot = some w →
      (∃ v, g.vars.get? slot = some v ∧ w.rule = v.rule ∧ w.inputs = v.inputs) ∨
        w.rule.Fits h w.inputs) : h.Wired := by
  intro slot w hw
  rcases hvars slot w hw with ⟨v, hv, hrule, hinputs⟩ | hfits
  · rw [hrule, hinputs]
    exact fits_of_hasModule hmodules (hg slot v hv)
  · exact hfits

theorem Wired.of_shrinks {g h : Graph σ} (hg : g.Wired) (hshrinks : g.Shrinks h)
    (hmodules : ∀ m, g.HasModule m → h.HasModule m) : h.Wired := by
  refine hg.of_vars hmodules fun slot w hw => ?_
  obtain ⟨v, hv, hwv⟩ := hshrinks slot w hw
  have hinputs : w.bare.inputs = v.bare.inputs := by rw [hwv]
  exact Or.inl ⟨v, hv, Variable.rule_eq_of_bare_eq hwv, hinputs⟩

/-- Evaluation gives no variable another rule. -/
theorem Wired.evaluateWithin {g : Graph σ} (hg : g.Wired) (depth : Nat) (path : List Slot)
    (slot : Slot) : (evaluateWithin depth path slot g).2.Wired :=
  hg.of_shrinks (shrinks_evaluateWithin depth path slot g)
    fun m => (hasModule_evaluateWithin depth path slot g m).mpr

theorem Wired.register_getD {g : Graph σ} (hg : g.Wired) (hsound : g.Sound) (slot : Slot)
    (name : Option String) {inputs : List String} {rule : Rule σ} (hrule : rule.Fits g inputs) :
    ((g.register slot name inputs rule).toOption.getD g).Wired := by
  cases hv : g.vars.get? slot with
  | none =>
      rw [register_dead hv]
      exact hg
  | some v =>
      obtain ⟨h, hregister, hh⟩ := register_live hsound hv name inputs rule
      rw [hregister]
      refine hg.of_vars (fun m => (hh.hasModule m).mpr) fun other w hw => ?_
      replace hw : h.vars.get? other = some w := hw
      rw [hh.get? hv] at hw
      split at hw
      · cases hw
        exact Or.inr (fits_of_hasModule (fun m => (hh.hasModule m).mpr) hrule)
      · exact Or.inl ⟨w, hw, rfl, rfl⟩

/-- Every edit gives rules that fit. -/
theorem Wired.edit {g : Graph σ} (hg : g.Wired) (hsound : g.Sound) (edit : Edit σ)
    (hvalid : edit.Valid g) : (edit.apply g).Wired := by
  cases edit with
  | newModule =>
      exact hg.of_vars (fun m => hasModule_newModule) fun slot w hw => Or.inl ⟨w, hw, rfl, rfl⟩
  | newVariable m observer =>
      refine hg.of_vars (fun _ hm => hm) fun slot w hw => ?_
      simp only [Edit.apply, newVariable, Slots.get?_insert hsound.slots] at hw
      split at hw
      · cases hw
        exact Or.inr rfl
      · exact Or.inl ⟨w, hw, rfl, rfl⟩
  | define slot name inputs body =>
      have hrule : (Rule.define body).Fits g inputs := trivial
      exact hg.register_getD hsound slot name hrule
  | importing slot name newName source =>
      have hrule : (Rule.importing name source).Fits g [] := hvalid
      exact hg.register_getD hsound slot (some newName) hrule
  | delete slot =>
      exact hg.of_shrinks (shrinks_delete g slot) fun m => (hasModule_delete g slot m).mpr
  | derive m injections source =>
      have hd := derived_derive hsound m injections source
      have hmodules := fun k hk => (hd.hasModule k).mpr (Or.inl hk)
      refine hg.of_vars hmodules fun slot w hw => ?_
      -- a copy has the rule of a variable that is there, an alias the source of the derivation
      rcases hd.new hw with hold | ⟨-, ⟨name, origin, v, -, hv, rfl⟩ | ⟨b, -, rfl⟩⟩
      · exact Or.inl ⟨w, hold, rfl, rfl⟩
      · exact Or.inr (fits_of_hasModule hmodules (hg origin v hv))
      · exact Or.inr (hmodules source hvalid.2)

/-! ## Runs of acts -/

/-- What holds of every graph that a run of acts leads to, whatever its bodies do. -/
structure Intact (g : Graph σ) : Prop where
  kept : g.Kept fun _ => True
  wired : g.Wired

/-- Where all bodies satisfy a predicate now, it does not matter which ones there were before. -/
theorem Intact.kept_of_rules {g : Graph σ} (hg : g.Intact) {Q : Body σ → Prop}
    (hrules : ∀ slot v, g.vars.get? slot = some v → v.rule.Satisfies Q) : g.Kept Q :=
  ⟨hg.kept.sound, fun {slot v} hv => hrules slot v hv, hg.kept.caches⟩

theorem Intact.evaluateWithin {g : Graph σ} (hg : g.Intact) (depth : Nat) (path : List Slot)
    (slot : Slot) : (evaluateWithin depth path slot g).2.Intact :=
  ⟨hg.kept.evaluateWithin depth path slot, hg.wired.evaluateWithin depth path slot⟩

theorem Intact.settle {g : Graph σ} (hg : g.Intact) : g.settle.2.Intact :=
  settleWithin_invariant (fun depth path slot hh => hh.evaluateWithin depth path slot) g.maxPasses hg

/-- An operation keeps the invariant. -/
theorem Kept.op {Q : Body σ → Prop} {g : Graph σ} (hg : g.Kept Q) {op : Op σ} (hvalid : op.Valid g)
    (hbody : op.Satisfies Q) : (op.apply g).Kept Q := by
  cases op with
  | edit edit => exact closed_kept.apply hg edit hvalid hbody
  | settle =>
      exact settleWithin_invariant (P := fun h => h.Kept Q)
        (fun depth path slot hh => hh.evaluateWithin depth path slot) g.maxPasses hg
  | value m name =>
      exact value_invariant (P := fun h => h.Kept Q)
        (fun depth path slot hh => hh.evaluateWithin depth path slot) m name hg

theorem Intact.op {g : Graph σ} (hg : g.Intact) {op : Op σ} (hvalid : op.Valid g) :
    (op.apply g).Intact := by
  have hkept := hg.kept.op hvalid (Act.op op).satisfies_true
  cases op with
  | edit edit => exact ⟨hkept, hg.wired.edit hg.kept.sound edit hvalid⟩
  | settle => exact hg.settle
  | value m name =>
      exact value_invariant (fun depth path slot hh => hh.evaluateWithin depth path slot) m name hg

/-- The invariant holds after every run of acts whose bodies satisfy `Q`. -/
theorem Kept.applyAll {Q : Body σ → Prop} {g : Graph σ} (hg : g.Kept Q) (acts : List (Act σ))
    (hvalid : Act.ValidAll g acts) (hbodies : ∀ act ∈ acts, act.Satisfies Q) :
    (Act.applyAll g acts).Kept Q :=
  Act.invariant (P := fun h => h.Kept Q) (fun hg hop hbody => hg.op hop hbody)
    (fun hg _ => ⟨hg.sound.congr rfl rfl, hg.rules, hg.caches⟩) acts hg hvalid hbodies

theorem intact_applyAll (world : World σ) (maxPasses : Nat) (acts : List (Act σ))
    (hvalid : Act.ValidAll { world, maxPasses } acts) :
    (Act.applyAll { world, maxPasses } acts).Intact := by
  have hstart : ({ world, maxPasses } : Graph σ).Intact := by
    refine ⟨kept_applyAll world maxPasses [] trivial (by simp), fun slot v hv => ?_⟩
    simp [Slots.get?] at hv
  refine Act.invariant (Q := fun _ => True) (fun hg hop _ => hg.op hop) ?_ acts hstart hvalid
    fun act _ => act.satisfies_true
  intro g r value hg _
  exact ⟨⟨hg.kept.sound.congr rfl rfl, hg.kept.rules, hg.kept.caches⟩, hg.wired⟩

/-- Where all bodies that a run of acts brings in satisfy a predicate, those of the graph that it leads to
do. -/
theorem rules_applyAll {Q : Body σ → Prop} (world : World σ) (maxPasses : Nat) (acts : List (Act σ))
    (hvalid : Act.ValidAll { world, maxPasses } acts) (hbodies : ∀ act ∈ acts, act.Satisfies Q) :
    ∀ slot v, (Act.applyAll { world, maxPasses } acts).vars.get? slot = some v →
      v.rule.Satisfies Q := by
  intro slot v hv
  have hstart : ({ world, maxPasses } : Graph σ).Kept Q :=
    kept_applyAll world maxPasses [] trivial (by simp)
  exact (hstart.applyAll acts hvalid hbodies).rules hv

end Graph

end CellGraph
