import CellGraph.Proofs.Graph.Copies

/-!
# Tables of modules

The table of a module lists its variables in the order of their places, and all modules share the places.
As long as no place has become free (`Tidy`), a new variable takes a place behind all others, so the table
of its module gets one more row at the end and no other table changes. `Appends` says so of a change of the
graph. A new module, a variable that is registered as soon as it is made, and a derivation are such
changes, and so are several of them in a row.
-/

namespace CellGraph

namespace Slots

variable {α : Type}

/-- Without free places, a new value gets a place behind all others. -/
theorem insert_of_full {s : Slots α} (hfree : s.free = []) (a : α) :
    s.insert a = (⟨s.entries.size, 0⟩, ⟨s.entries.push ⟨0, some a⟩, []⟩) := by
  simp [insert, append, hfree]

/-- Without free places, a new value comes last in the listing and leaves no place free. -/
theorem toList_insert {s : Slots α} (hfree : s.free = []) (a : α) :
    (s.insert a).2.toList = s.toList ++ [((s.insert a).1, a)] ∧ (s.insert a).2.free = [] := by
  rw [insert_of_full hfree]
  refine ⟨?_, rfl⟩
  simp [toList, List.zipIdx_append, List.filterMap_append]

/-- Without free places, a value that is replaced as soon as it is stored might have been stored as the
new one. -/
theorem set_insert {s : Slots α} (hfree : s.free = []) (a b : α) :
    (s.insert a).2.set (s.insert a).1 b = (s.insert b).2 := by
  rw [insert_of_full hfree, insert_of_full hfree]
  rw [set_of_get?_some (b := a) (by simp [get?]), Slots.mk.injEq]
  refine ⟨Array.ext_getElem? fun i => ?_, rfl⟩
  simp only [Array.getElem?_setIfInBounds, Array.getElem?_push, Array.size_push]
  by_cases hlast : s.entries.size = i
  · simp [hlast]
  · simp [hlast, Ne.symm hlast]

end Slots

namespace Graph

variable {σ : Type} {g h : Graph σ} {m : ModuleId}

/-- A sound graph in which no place has become free. -/
structure Tidy (g : Graph σ) : Prop where
  sound : g.Sound
  full : g.vars.free = []

/-- A graph without variables is tidy. -/
theorem tidy_empty (host : σ) (maxPasses : Nat) : (empty host maxPasses).Tidy :=
  ⟨sound_start _ _, rfl⟩

/-- What a change leaves of a graph that adds rows to the table of a module, and touches the table of no
other module that is there. -/
structure Appends (m : ModuleId) (new : List Row) (g h : Graph σ) : Prop where
  tidy : h.Tidy
  hasModule : ∀ {k}, g.HasModule k → h.HasModule k
  rows : ∀ {k}, g.HasModule k → h.rows k = g.rows k ++ if k = m then new else []

/-- A change of what is not a variable or a name adds no row. -/
theorem Tidy.appends_of_vars (hg : g.Tidy) (hvars : h.vars = g.vars) (hscopes : h.scopes = g.scopes)
    (m : ModuleId) : Appends m [] g h where
  tidy := ⟨hg.sound.congr hvars hscopes, hvars ▸ hg.full⟩
  hasModule hk := by
    unfold HasModule
    rw [hscopes]
    exact hk
  rows _ := by simp [Graph.rows, hvars]

theorem Tidy.appends_refl (hg : g.Tidy) (m : ModuleId) : Appends m [] g g :=
  hg.appends_of_vars rfl rfl m

theorem Appends.trans {k : Graph σ} {new new' : List Row} (hgh : Appends m new g h)
    (hhk : Appends m new' h k) : Appends m (new ++ new') g k where
  tidy := hhk.tidy
  hasModule hm := hhk.hasModule (hgh.hasModule hm)
  rows {other} hm := by
    rw [hhk.rows (hgh.hasModule hm), hgh.rows hm, List.append_assoc]
    by_cases hother : other = m <;> simp [hother]

/-- Rows in a module that was not there before are no rows in any other module. -/
theorem Appends.of_fresh {new : List Row} (hgh : Appends m new g h) (hfresh : ¬ g.HasModule m)
    (other : ModuleId) : Appends other [] g h where
  tidy := hgh.tidy
  hasModule := hgh.hasModule
  rows {k} hk := by
    have hne : k ≠ m := by
      rintro rfl
      exact hfresh hk
    rw [hgh.rows hk, if_neg hne]
    simp

/-- A new module adds no row anywhere. -/
theorem Tidy.newModule (hg : g.Tidy) (m : ModuleId) : Appends m [] g g.newModule.2 where
  tidy := ⟨hg.sound.newModule, hg.full⟩
  hasModule := hasModule_newModule
  rows _ := by simp [Graph.rows, Graph.newModule]

theorem not_hasModule_newModule (g : Graph σ) : ¬ g.HasModule g.newModule.1 := by
  simp [HasModule, newModule]

/-- The table of a new module is empty. -/
theorem Tidy.rows_newModule (hg : g.Tidy) : g.newModule.2.rows g.newModule.1 = [] := by
  unfold Graph.rows
  rw [List.map_eq_nil_iff, List.filter_eq_nil_iff]
  rintro ⟨slot, v⟩ hv hhome
  have hlive : g.vars.get? slot = some v := Slots.mem_toList.mp hv
  simp only [decide_eq_true_eq] at hhome
  exact not_hasModule_newModule g (hhome ▸ hg.sound.home hlive)

/-- A graph with one more variable has one more row, in the module of the variable. -/
theorem rows_insert (hg : g.Tidy) {v : Variable σ} (hvars : h.vars = (g.vars.insert v).2)
    (k : ModuleId) : h.rows k = g.rows k ++ if k = v.home then [rowOf v] else [] := by
  unfold Graph.rows
  rw [hvars, (Slots.toList_insert hg.full v).1, List.filter_append, List.map_append]
  by_cases hk : k = v.home
  · simp [hk]
  · simp [hk, Ne.symm hk]

/-- A graph with one more variable is tidy if it is sound. -/
theorem Tidy.of_insert (hg : g.Tidy) (hsound : h.Sound) {v : Variable σ}
    (hvars : h.vars = (g.vars.insert v).2) : h.Tidy := by
  refine ⟨hsound, ?_⟩
  rw [hvars]
  exact (Slots.toList_insert hg.full v).2

/-- A new variable that is registered at once might have been stored as it is then. -/
theorem Tidy.register_newVariable (hg : g.Tidy) (hm : g.HasModule m) (observer : Option String)
    (name : Option String) (inputs : List String) (rule : Rule σ) :
    ∃ h, (g.newVariable m observer).2.register (g.newVariable m observer).1 name inputs rule = .ok h ∧
      h.vars = (g.vars.insert { home := m, observer, name, inputs, rule }).2 ∧ h.Tidy ∧
      ∀ k, g.HasModule k → h.HasModule k := by
  have hsound := hg.sound.newVariable hm observer
  have hlive : (g.newVariable m observer).2.vars.get? (g.newVariable m observer).1 =
      some { home := m, observer } := by
    simp [newVariable, Slots.get?_insert hg.sound.slots]
  obtain ⟨h, hregister, hh⟩ := register_live hsound hlive name inputs rule
  have hvars : h.vars = (g.vars.insert { home := m, observer, name, inputs, rule }).2 :=
    hh.vars.trans (Slots.set_insert hg.full _ _)
  exact ⟨h, hregister, hvars, hg.of_insert (hh.sound hsound hlive) hvars, fun _ hk => (hh.hasModule _).mpr hk⟩

/-- A new variable that is registered at once adds its row to the table of its module. -/
theorem Tidy.declare (hg : g.Tidy) (hm : g.HasModule m) (observer : Option String)
    (name : Option String) (inputs : List String) (rule : Rule σ) :
    ∃ h, (g.newVariable m observer).2.register (g.newVariable m observer).1 name inputs rule = .ok h ∧
      Appends m [rowOf { home := m, name, inputs, rule }] g h := by
  obtain ⟨h, hregister, hvars, htidy, hmodules⟩ := hg.register_newVariable hm observer name inputs rule
  exact ⟨h, hregister, htidy, hmodules _, fun _ => rows_insert hg hvars _⟩

/-- A variable that starts with a name adds its row to the table of its module. -/
theorem Tidy.addNamed (hg : g.Tidy) (hm : g.HasModule m) (name : String) (inputs : List String)
    (rule : Rule σ) :
    Appends m [rowOf { home := m, name := some name, inputs, rule }] g (g.addNamed m name inputs rule) where
  tidy := hg.of_insert (hg.sound.addNamed hm name inputs rule) (addNamed_vars g m name inputs rule)
  hasModule hk := (hasModule_addNamed g m name inputs rule _).mpr hk
  rows _ := rows_insert hg (addNamed_vars g m name inputs rule) _

theorem Tidy.addAll (hg : g.Tidy) (hm : g.HasModule m) (holdings : List (Holding σ)) :
    ∃ new, Appends m new g (g.addAll m holdings) := by
  induction holdings generalizing g with
  | nil => exact ⟨[], hg.appends_refl m⟩
  | cons held holdings ih =>
      have hfirst := hg.addNamed hm held.name held.inputs held.rule
      obtain ⟨new, hrest⟩ := ih hfirst.tidy (hfirst.hasModule hm)
      exact ⟨_, hfirst.trans hrest⟩

/-- A derivation fills a module that was not there before, and so adds no row to any other. -/
theorem Tidy.derive (hg : g.Tidy) (source : ModuleId) (injections : List Binding)
    (home other : ModuleId) : Appends other [] g (g.derive source injections home).2 := by
  rw [derive_eq]
  have hmodule := hg.newModule g.newModule.1
  obtain ⟨new, hfilled⟩ := hmodule.tidy.addAll (hasModule_newModule_self g)
    (g.holdings source injections home)
  exact (hmodule.trans hfilled).of_fresh (not_hasModule_newModule g) other

end Graph

end CellGraph
