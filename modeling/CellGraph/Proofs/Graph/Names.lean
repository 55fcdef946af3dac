import CellGraph.Graph.Derivation
import CellGraph.Proofs.Slots

/-!
# Names and the variables that have them

What each operation on a graph does to the names of its modules, as an equation for `lookup`, and the
invariant behind these equations: a name always leads to a variable that lives in that module under
that name (`Sound`). A variable may have lost its name to a later one, so the converse does not hold.
-/

namespace CellGraph

/-! ## Scopes -/

namespace Scope

/-- An entry at the front decides about its own name only. -/
theorem lookup_cons_if (name other : String) (slot : Slot) (scope : Scope) :
    List.lookup other ((name, slot) :: scope) =
      if other = name then some slot else scope.lookup other := by
  by_cases hother : other = name
  · simp [hother]
  · have hne : (other == name) = false := beq_eq_false_iff_ne.mpr hother
    simp [List.lookup_cons, hne, hother]

/-- After `erase`, the name is free and every other name is as before. -/
theorem lookup_erase (name other : String) (scope : Scope) :
    (erase name scope).lookup other = if other = name then none else scope.lookup other := by
  induction scope with
  | nil => simp [erase]
  | cons entry scope ih =>
      obtain ⟨n, slot⟩ := entry
      by_cases hn : n = name
      · have hdrop : erase name ((n, slot) :: scope) = erase name scope := by
          simp [erase, hn]
        rw [hdrop, ih, lookup_cons_if]
        by_cases hother : other = name
        · simp [hother]
        · simp [hother, hn]
      · have hkeep : erase name ((n, slot) :: scope) = (n, slot) :: erase name scope := by
          simp [erase, hn]
        rw [hkeep, lookup_cons_if, ih, lookup_cons_if]
        by_cases hother : other = n
        · simp [hother, hn]
        · simp [hother]

/-- After `bind`, the name leads to the variable and every other name is as before. -/
theorem lookup_bind (name other : String) (slot : Slot) (scope : Scope) :
    (bind name slot scope).lookup other =
      if other = name then some slot else scope.lookup other := by
  unfold bind
  rw [lookup_cons_if, lookup_erase]
  by_cases hother : other = name
  · simp [hother]
  · simp [hother]

/-- After `release`, the name is free if the variable had it; every other name is as before. -/
theorem lookup_release (name other : String) (slot : Slot) (scope : Scope) :
    (release name slot scope).lookup other =
      if other = name ∧ scope.lookup name = some slot then none else scope.lookup other := by
  unfold release
  by_cases hheld : scope.lookup name = some slot
  · simp [hheld, lookup_erase]
  · simp [hheld]

end Scope

namespace Graph

variable {σ : Type}

/-- Whether a module was made. -/
def HasModule (g : Graph σ) (m : ModuleId) : Prop :=
  m.index < g.scopes.size

instance (g : Graph σ) (m : ModuleId) : Decidable (g.HasModule m) :=
  inferInstanceAs (Decidable (m.index < g.scopes.size))

/-- Changing the names of a module that exists changes the names of that module only. -/
theorem lookup_changeScope {g : Graph σ} {m : ModuleId} (hm : g.HasModule m) (f : Scope → Scope)
    (other : ModuleId) (name : String) :
    (g.changeScope m f).lookup other name =
      if other = m then (f (g.scope m)).lookup name else g.lookup other name := by
  obtain ⟨i⟩ := m
  obtain ⟨j⟩ := other
  simp only [HasModule] at hm
  simp only [lookup, scope, changeScope, Array.getElem?_modify, ModuleId.mk.injEq]
  by_cases hij : i = j
  · subst hij
    simp [hm]
  · simp [hij, Ne.symm hij]

/-- A new module starts without names. -/
theorem lookup_newModule (g : Graph σ) (m : ModuleId) (name : String) :
    g.newModule.2.lookup m name = g.lookup m name := by
  simp only [lookup, scope, newModule, Array.getElem?_push]
  by_cases hm : m.index = g.scopes.size
  · simp [hm]
  · simp [hm]

/-! ## The invariant -/

/-- The variables are stored well, each in a module that exists, and a name leads to a variable that
lives in the module under that name. -/
structure Sound (g : Graph σ) : Prop where
  slots : g.vars.WellFormed
  home : ∀ {slot : Slot} {v : Variable σ}, g.vars.get? slot = some v → g.HasModule v.home
  named : ∀ {m : ModuleId} {name : String} {slot : Slot}, g.lookup m name = some slot →
    ∃ v, g.vars.get? slot = some v ∧ v.home = m ∧ v.name = some name

/-- The invariant is about the variables and the names only. -/
theorem Sound.congr {g h : Graph σ} (hg : g.Sound) (hvars : h.vars = g.vars)
    (hscopes : h.scopes = g.scopes) : h.Sound := by
  constructor
  · rw [hvars]
    exact hg.slots
  · intro slot v hv
    rw [hvars] at hv
    unfold HasModule
    rw [hscopes]
    exact hg.home hv
  · intro m name slot hname
    rw [hvars]
    unfold lookup scope at hname
    rw [hscopes] at hname
    exact hg.named hname

/-- A graph without variables is sound. -/
theorem sound_start (world : World σ) (maxPasses : Nat) :
    ({ world, maxPasses } : Graph σ).Sound where
  slots := Slots.wellFormed_empty
  home hv := by simp [Slots.get?] at hv
  named hname := by simp [lookup, scope] at hname

/-- In a sound graph, a variable without a value has no name. -/
theorem Sound.lookup_ne {g : Graph σ} (hg : g.Sound) {slot : Slot} (hdead : g.vars.get? slot = none)
    (m : ModuleId) (name : String) : g.lookup m name ≠ some slot := by
  intro hname
  obtain ⟨v, hv, -⟩ := hg.named hname
  rw [hdead] at hv
  cases hv

/-! ## New modules and variables -/

theorem hasModule_newModule {g : Graph σ} {m : ModuleId} (hm : g.HasModule m) :
    g.newModule.2.HasModule m := by
  simp only [HasModule, newModule, Array.size_push] at hm ⊢
  omega

/-- The module that `newModule` makes exists. -/
theorem hasModule_newModule_self (g : Graph σ) : g.newModule.2.HasModule g.newModule.1 := by
  simp [HasModule, newModule]

theorem Sound.newModule {g : Graph σ} (hg : g.Sound) : g.newModule.2.Sound where
  slots := hg.slots
  home hv := hasModule_newModule (hg.home hv)
  named hname := hg.named (lookup_newModule g _ _ ▸ hname)

/-- A variable that is added without a name leaves the invariant alone. -/
theorem Sound.insert {g : Graph σ} (hg : g.Sound) {v : Variable σ} (hv : g.HasModule v.home) :
    ({ g with vars := (g.vars.insert v).2 } : Graph σ).Sound where
  slots := hg.slots.insert v
  home {slot w} hw := by
    rw [Slots.get?_insert hg.slots] at hw
    split at hw
    · cases hw
      exact hv
    · exact hg.home hw
  named {m name slot} hname := by
    have hname : g.lookup m name = some slot := hname
    obtain ⟨w, hw, hhome⟩ := hg.named hname
    refine ⟨w, ?_, hhome⟩
    rw [Slots.get?_insert hg.slots, if_neg, hw]
    rintro rfl
    rw [Slots.get?_insert_fresh hg.slots] at hw
    cases hw

theorem Sound.newVariable {g : Graph σ} (hg : g.Sound) {m : ModuleId} (hm : g.HasModule m)
    (observer : Option String) : (g.newVariable m observer).2.Sound :=
  hg.insert hm

/-! ## Registering and deleting -/

/-- A variable that gives its name up leaves no name behind, and takes none that it does not have. -/
theorem lookup_releaseName {g : Graph σ} {slot : Slot} {v : Variable σ} (hhome : g.HasModule v.home)
    (hnamed : ∀ m name, g.lookup m name = some slot → v.home = m ∧ v.name = some name)
    (m : ModuleId) (name : String) :
    (g.releaseName slot v).lookup m name =
      if g.lookup m name = some slot then none else g.lookup m name := by
  unfold releaseName
  cases hv : v.name with
  | none =>
      rw [if_neg]
      intro hname
      have hsome := (hnamed m name hname).2
      rw [hv] at hsome
      cases hsome
  | some own =>
      simp only [lookup_changeScope hhome, Scope.lookup_release]
      by_cases hm : m = v.home
      · subst hm
        by_cases hname : name = own
        · subst hname
          by_cases hheld : g.lookup v.home name = some slot
          · rw [if_pos rfl, if_pos ⟨rfl, hheld⟩, if_pos hheld]
          · rw [if_pos rfl, if_neg (fun h => hheld h.2), if_neg hheld]
            rfl
        · -- the variable has no other name than its own
          have hother : g.lookup v.home name ≠ some slot := by
            intro hlookup
            have howns := (hnamed _ _ hlookup).2
            rw [hv] at howns
            exact hname (Option.some.inj howns).symm
          rw [if_pos rfl, if_neg (by simp [hname]), if_neg hother]
          rfl
      · have hother : g.lookup m name ≠ some slot := fun hlookup =>
          hm (hnamed _ _ hlookup).1.symm
        rw [if_neg hm, if_neg hother]

theorem hasModule_releaseName (g : Graph σ) (slot : Slot) (v : Variable σ) (m : ModuleId) :
    (g.releaseName slot v).HasModule m ↔ g.HasModule m := by
  unfold releaseName
  cases v.name <;> simp [HasModule, changeScope]

theorem releaseName_vars (g : Graph σ) (slot : Slot) (v : Variable σ) :
    (g.releaseName slot v).vars = g.vars := by
  unfold releaseName
  cases v.name <;> rfl

/-- What is left of a graph after one of its variables was registered. -/
structure Registered (g : Graph σ) (slot : Slot) (v : Variable σ) (name : Option String)
    (inputs : List String) (rule : Rule σ) (h : Graph σ) : Prop where
  vars : h.vars = g.vars.set slot { v with name, inputs, rule, cache := none }
  hasModule : ∀ m, h.HasModule m ↔ g.HasModule m
  lookup : ∀ m other, h.lookup m other =
    if m = v.home ∧ name = some other then some slot
    else if g.lookup m other = some slot then none else g.lookup m other
  world : h.world = g.world
  maxPasses : h.maxPasses = g.maxPasses

/-- A deleted variable cannot be registered. -/
theorem register_dead {g : Graph σ} {slot : Slot} (hdead : g.vars.get? slot = none)
    (name : Option String) (inputs : List String) (rule : Rule σ) :
    g.register slot name inputs rule = .error .deleted := by
  simp [register, hdead]

/-- Giving a name that may be absent. -/
theorem lookup_giveName {g : Graph σ} {m : ModuleId} (hm : g.HasModule m) (name : Option String)
    (slot : Slot) (other : ModuleId) (n : String) :
    (match name with
      | some name => g.changeScope m (Scope.bind name slot)
      | none => g).lookup other n =
      if other = m ∧ name = some n then some slot else g.lookup other n := by
  cases name with
  | none => simp
  | some own =>
      simp only [lookup_changeScope hm, Scope.lookup_bind]
      by_cases hother : other = m
      · subst hother
        by_cases hn : n = own
        · simp [hn]
        · rw [if_pos rfl, if_neg hn, if_neg (by simp [Ne.symm hn])]
          rfl
      · simp [hother]

/-- What `register` does to a variable that is there. -/
theorem register_live {g : Graph σ} (hg : g.Sound) {slot : Slot} {v : Variable σ}
    (hv : g.vars.get? slot = some v) (name : Option String) (inputs : List String) (rule : Rule σ) :
    ∃ h, g.register slot name inputs rule = .ok h ∧ Registered g slot v name inputs rule h := by
  have hown : ∀ m other, g.lookup m other = some slot → v.home = m ∧ v.name = some other := by
    intro m other hname
    obtain ⟨w, hw, hhome, hother⟩ := hg.named hname
    rw [hv] at hw
    cases hw
    exact ⟨hhome, hother⟩
  have hhome : (g.releaseName slot v).HasModule v.home :=
    (hasModule_releaseName g slot v _).mpr (hg.home hv)
  refine ⟨_, by rw [register, hv], ?_, ?_, ?_, ?_, ?_⟩
  · cases name <;> cases v.observer <;> simp [notify, changeScope, releaseName_vars]
  · intro m
    rw [← hasModule_releaseName g slot v m]
    cases name <;> cases v.observer <;> simp [notify, changeScope, HasModule]
  · intro m other
    rw [← lookup_releaseName (hg.home hv) hown, ← lookup_giveName hhome]
    cases v.observer <;> rfl
  · cases name <;> cases hname : v.name <;> cases v.observer <;>
      simp [notify, changeScope, releaseName, hname]
  · cases name <;> cases hname : v.name <;> cases v.observer <;>
      simp [notify, changeScope, releaseName, hname]

/-- What the handles find after a registration. -/
theorem Registered.get? {g h : Graph σ} {slot : Slot} {v : Variable σ} {name : Option String}
    {inputs : List String} {rule : Rule σ} (hh : Registered g slot v name inputs rule h)
    (hv : g.vars.get? slot = some v) (other : Slot) :
    h.vars.get? other =
      if other = slot then some { v with name, inputs, rule, cache := none }
      else g.vars.get? other := by
  rw [hh.vars, Slots.get?_set, hv]
  rfl

theorem Registered.sound {g h : Graph σ} {slot : Slot} {v : Variable σ} {name : Option String}
    {inputs : List String} {rule : Rule σ} (hh : Registered g slot v name inputs rule h)
    (hg : g.Sound) (hv : g.vars.get? slot = some v) : h.Sound where
  slots := by
    rw [hh.vars]
    exact hg.slots.set slot _
  home {other w} hw := by
    rw [hh.get? hv] at hw
    rw [hh.hasModule]
    split at hw
    · cases hw
      exact (hg.home hv : g.HasModule v.home)
    · exact hg.home hw
  named {m n other} hname := by
    rw [hh.lookup] at hname
    rw [hh.get? hv]
    split at hname
    · next hnew =>
        cases hname
        exact ⟨_, if_pos rfl, hnew.1.symm, hnew.2⟩
    · split at hname
      · cases hname
      · next hkept =>
          -- a name that the variable did not have stays with its own variable
          have hne : other ≠ slot := by
            rintro rfl
            exact hkept hname
          rw [if_neg hne]
          exact hg.named hname

/-- Deleting a variable that is not there changes nothing. -/
theorem delete_dead {g : Graph σ} {slot : Slot} (hdead : g.vars.get? slot = none) :
    g.delete slot = g := by
  simp [delete, Slots.remove_of_get?_none hdead]

/-- Deleting a variable that is there frees its place and gives its name up. -/
theorem delete_live {g : Graph σ} {slot : Slot} {v : Variable σ} (hv : g.vars.get? slot = some v) :
    g.delete slot = ({ g with vars := (g.vars.remove slot).2 } : Graph σ).releaseName slot v := by
  have hfst : (g.vars.remove slot).1 = some v := by rw [Slots.remove_fst, hv]
  unfold delete
  cases hremove : g.vars.remove slot with
  | mk found vars =>
      rw [hremove] at hfst
      cases hfst
      rfl

theorem delete_vars (g : Graph σ) (slot : Slot) : (g.delete slot).vars = (g.vars.remove slot).2 := by
  cases hv : g.vars.get? slot with
  | none => rw [delete_dead hv, Slots.remove_of_get?_none hv]
  | some v => rw [delete_live hv, releaseName_vars]

/-- After a deletion, the names of the deleted variable are free. -/
theorem lookup_delete {g : Graph σ} (hg : g.Sound) (slot : Slot) (m : ModuleId) (name : String) :
    (g.delete slot).lookup m name =
      if g.lookup m name = some slot then none else g.lookup m name := by
  cases hv : g.vars.get? slot with
  | none =>
      rw [delete_dead hv, if_neg (hg.lookup_ne hv m name)]
  | some v =>
      rw [delete_live hv]
      refine lookup_releaseName (g := { g with vars := (g.vars.remove slot).2 }) (hg.home hv) ?_ m name
      intro m' name' hname
      obtain ⟨w, hw, hhome, hother⟩ := hg.named hname
      rw [hv] at hw
      cases hw
      exact ⟨hhome, hother⟩

theorem hasModule_delete (g : Graph σ) (slot : Slot) (m : ModuleId) :
    (g.delete slot).HasModule m ↔ g.HasModule m := by
  cases hv : g.vars.get? slot with
  | none => rw [delete_dead hv]
  | some v =>
      rw [delete_live hv, hasModule_releaseName]
      rfl

theorem Sound.delete {g : Graph σ} (hg : g.Sound) (slot : Slot) : (g.delete slot).Sound where
  slots := by
    rw [delete_vars]
    exact hg.slots.remove slot
  home {other w} hw := by
    rw [delete_vars, Slots.get?_remove] at hw
    rw [hasModule_delete]
    split at hw
    · cases hw
    · exact hg.home hw
  named {m name other} hname := by
    rw [lookup_delete hg] at hname
    rw [delete_vars, Slots.get?_remove]
    split at hname
    · cases hname
    · next hkept =>
        have hne : other ≠ slot := by
          rintro rfl
          exact hkept hname
        rw [if_neg hne]
        exact hg.named hname

/-! ## Variables that start with a name -/

/-- The handle of the variable that `addNamed` makes. -/
def addNamedSlot (g : Graph σ) (m : ModuleId) (name : String) (inputs : List String)
    (rule : Rule σ) : Slot :=
  (g.vars.insert { home := m, name := some name, inputs, rule }).1

theorem addNamed_vars (g : Graph σ) (m : ModuleId) (name : String) (inputs : List String)
    (rule : Rule σ) : (g.addNamed m name inputs rule).vars =
      (g.vars.insert { home := m, name := some name, inputs, rule }).2 :=
  rfl

/-- The new variable takes the name; all other names are as before. -/
theorem lookup_addNamed {g : Graph σ} {m : ModuleId} (hm : g.HasModule m) (name : String)
    (inputs : List String) (rule : Rule σ) (other : ModuleId) (n : String) :
    (g.addNamed m name inputs rule).lookup other n =
      if other = m ∧ name = n then some (g.addNamedSlot m name inputs rule)
      else g.lookup other n := by
  unfold addNamed
  rw [lookup_changeScope (by exact hm), Scope.lookup_bind]
  by_cases hother : other = m
  · subst hother
    by_cases hn : n = name
    · simp [hn, addNamedSlot]
    · rw [if_pos rfl, if_neg hn, if_neg (by simp [Ne.symm hn])]
      rfl
  · simp only [hother, false_and, if_false]
    rfl

theorem hasModule_addNamed (g : Graph σ) (m : ModuleId) (name : String) (inputs : List String)
    (rule : Rule σ) (other : ModuleId) :
    (g.addNamed m name inputs rule).HasModule other ↔ g.HasModule other := by
  simp [HasModule, addNamed, changeScope]

theorem Sound.addNamed {g : Graph σ} (hg : g.Sound) {m : ModuleId} (hm : g.HasModule m)
    (name : String) (inputs : List String) (rule : Rule σ) :
    (g.addNamed m name inputs rule).Sound where
  slots := hg.slots.insert _
  home {slot w} hw := by
    rw [addNamed_vars, Slots.get?_insert hg.slots] at hw
    rw [hasModule_addNamed]
    split at hw
    · cases hw
      exact hm
    · exact hg.home hw
  named {other n slot} hname := by
    rw [lookup_addNamed hm] at hname
    rw [addNamed_vars, Slots.get?_insert hg.slots]
    split at hname
    · next hnew =>
        cases hname
        exact ⟨_, if_pos rfl, hnew.1.symm, by rw [hnew.2]⟩
    · obtain ⟨w, hw, hhome⟩ := hg.named hname
      refine ⟨w, ?_, hhome⟩
      rw [if_neg, hw]
      rintro rfl
      rw [Slots.get?_insert_fresh hg.slots] at hw
      cases hw

end Graph

end CellGraph
