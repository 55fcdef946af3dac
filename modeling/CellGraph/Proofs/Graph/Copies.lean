import CellGraph.Proofs.Graph.Run
import Mathlib.Data.List.Induction

/-!
# Derived modules

A derivation makes a module and gives it variables, one name after the other, so the last variable that is
made for a name has it. What was there before is not touched (`Added`). For the derived module this comes
to the following (`Derived`): an alias is an import, of the name that the last injection with that alias
has; every other name that the module has is a copy; and there are no further names.
-/

namespace CellGraph.Graph

variable {σ : Type}

/-! ## Adding variables with names -/

/-- The variable that is made for a holding. -/
def Holding.toVariable (m : ModuleId) (held : Holding σ) : Variable σ :=
  { home := m, name := some held.name, inputs := held.inputs, rule := held.rule }

/-- What becomes of a graph in which a module is given variables for holdings. -/
structure Added (g : Graph σ) (m : ModuleId) (holdings : List (Holding σ)) (h : Graph σ) : Prop where
  sound : h.Sound
  rest : { h with vars := g.vars, scopes := g.scopes } = g
  hasModule : ∀ k, h.HasModule k ↔ g.HasModule k
  scope : ∀ k, k ≠ m → h.scope k = g.scope k
  old : ∀ {slot : Slot} {v : Variable σ}, g.vars.get? slot = some v → h.vars.get? slot = some v
  new : ∀ {slot : Slot} {w : Variable σ}, h.vars.get? slot = some w → g.vars.get? slot = some w ∨
    g.vars.get? slot = none ∧ ∃ held ∈ holdings, w = held.toVariable m
  bound : ∀ {name : String} {held : Holding σ},
    holdings.reverse.find? (fun held => held.name = name) = some held →
      ∃ slot, h.lookup m name = some slot ∧ h.vars.get? slot = some (held.toVariable m)
  unbound : ∀ {name : String}, holdings.reverse.find? (fun held => held.name = name) = none →
    h.lookup m name = g.lookup m name

theorem scope_changeScope {g : Graph σ} {m k : ModuleId} (hk : k ≠ m) (f : Scope → Scope) :
    (g.changeScope m f).scope k = g.scope k := by
  obtain ⟨i⟩ := m
  obtain ⟨j⟩ := k
  have hij : i ≠ j := by
    rintro rfl
    exact hk rfl
  simp [scope, changeScope, Array.getElem?_modify, hij]

theorem added_nil {g : Graph σ} (hg : g.Sound) (m : ModuleId) : g.Added m [] g where
  sound := hg
  rest := rfl
  hasModule _ := Iff.rfl
  scope _ _ := rfl
  old hv := hv
  new hw := Or.inl hw
  bound hheld := by simp at hheld
  unbound _ := rfl

/-- One more variable takes the name of its holding and leaves everything else as it was. -/
theorem Added.concat {g h : Graph σ} {m : ModuleId} {holdings : List (Holding σ)}
    (hh : g.Added m holdings h) (hm : g.HasModule m) (held : Holding σ) :
    g.Added m (holdings ++ [held]) (h.addNamed m held.name held.inputs held.rule) := by
  have hm' : h.HasModule m := (hh.hasModule m).mpr hm
  have hslots := hh.sound.slots
  have hget : ∀ slot, (h.addNamed m held.name held.inputs held.rule).vars.get? slot =
      if slot = h.addNamedSlot m held.name held.inputs held.rule then some (held.toVariable m)
      else h.vars.get? slot := by
    intro slot
    rw [addNamed_vars, Slots.get?_insert hslots]
    rfl
  -- the variables that are there have other places than the new one
  have hfresh : h.vars.get? (h.addNamedSlot m held.name held.inputs held.rule) = none :=
    Slots.get?_insert_fresh hslots _
  have hlive : ∀ {slot v}, h.vars.get? slot = some v →
      (h.addNamed m held.name held.inputs held.rule).vars.get? slot = some v := by
    intro slot v hv
    rw [hget, if_neg, hv]
    rintro rfl
    rw [hfresh] at hv
    cases hv
  have hfind : ∀ name, (holdings ++ [held]).reverse.find? (fun held => held.name = name) =
      if held.name = name then some held
      else holdings.reverse.find? (fun held => held.name = name) := by
    intro name
    by_cases hname : held.name = name <;> simp [hname]
  refine ⟨hh.sound.addNamed hm' _ _ _, ?_, fun k => ?_, fun k hk => ?_, fun hv => hlive (hh.old hv), ?_,
    ?_, ?_⟩
  · exact hh.rest
  · rw [hasModule_addNamed, hh.hasModule]
  · rw [addNamed, scope_changeScope hk]
    exact hh.scope k hk
  · intro slot w hw
    rw [hget] at hw
    split at hw
    · next hnew =>
        refine Or.inr ⟨?_, held, by simp, (Option.some.inj hw).symm⟩
        -- a place that was free later was free before
        cases hv : g.vars.get? slot with
        | none => rfl
        | some v =>
            have hv' := hh.old hv
            rw [hnew, hfresh] at hv'
            cases hv'
    · rcases hh.new hw with hold | ⟨hdead, other, hother, rfl⟩
      · exact Or.inl hold
      · exact Or.inr ⟨hdead, other, List.mem_append_left _ hother, rfl⟩
  · intro name other hother
    rw [hfind] at hother
    rw [lookup_addNamed hm']
    split at hother
    · next hname =>
        cases hother
        exact ⟨_, if_pos ⟨rfl, hname⟩, by rw [hget, if_pos rfl]⟩
    · next hname =>
        obtain ⟨slot, hlookup, hv⟩ := hh.bound hother
        exact ⟨slot, by rw [if_neg (fun hboth => hname hboth.2), hlookup], hlive hv⟩
  · intro name hnone
    rw [hfind] at hnone
    rw [lookup_addNamed hm']
    split at hnone
    · cases hnone
    · next hname =>
        rw [if_neg (fun hboth => hname hboth.2)]
        exact hh.unbound hnone

theorem added_addAll {g : Graph σ} (hg : g.Sound) {m : ModuleId} (hm : g.HasModule m)
    (holdings : List (Holding σ)) : g.Added m holdings (g.addAll m holdings) := by
  induction holdings using List.reverseRecOn with
  | nil => exact added_nil hg m
  | append_singleton holdings held ih =>
      have hsplit : g.addAll m (holdings ++ [held]) =
          (g.addAll m holdings).addNamed m held.name held.inputs held.rule := by
        simp [addAll]
      rw [hsplit]
      exact ih.concat hm held

/-! ## Derivation -/

/-- The injection that decides about a name: the last one that has it for an alias. -/
def injectionFor (injections : List Binding) (name : String) : Option Binding :=
  injections.reverse.find? fun b => b.newName = name

theorem injectionFor_eq_none_iff {injections : List Binding} {name : String} :
    injectionFor injections name = none ↔ ∀ b ∈ injections, b.newName ≠ name := by
  simp [injectionFor]

/-- What `derive` makes of a graph: a module `d` with copies of the variables that have a name in `m`, but
for the aliases, which are imports from `source`. Every module and variable of before is as it was. -/
structure Derived (g : Graph σ) (m : ModuleId) (injections : List Binding) (source d : ModuleId)
    (h : Graph σ) : Prop where
  sound : h.Sound
  fresh : ¬ g.HasModule d
  hasModule : ∀ k, h.HasModule k ↔ g.HasModule k ∨ k = d
  scope : ∀ k, g.HasModule k → h.scope k = g.scope k
  old : ∀ {slot : Slot} {v : Variable σ}, g.vars.get? slot = some v → h.vars.get? slot = some v
  rest : { h with vars := g.vars, scopes := g.scopes } = g
  /-- An alias is an import of the name that its last injection has. -/
  injected : ∀ {name : String} {b : Binding}, injectionFor injections name = some b →
    ∃ slot, h.lookup d name = some slot ∧ h.vars.get? slot =
      some { home := d, name := some name, rule := .importing b.name source }
  /-- Every other name of the module is a copy of the variable that has it. -/
  copy : ∀ {name : String} {slot : Slot} {v : Variable σ}, injectionFor injections name = none →
    g.lookup m name = some slot → g.vars.get? slot = some v →
      ∃ copy, h.lookup d name = some copy ∧ h.vars.get? copy =
        some { home := d, name := some name, inputs := v.inputs, rule := v.rule }
  unbound : ∀ {name : String}, injectionFor injections name = none → g.lookup m name = none →
    h.lookup d name = none
  /-- There are no variables beside those of before, copies of what has a name, and imports. -/
  new : ∀ {slot : Slot} {w : Variable σ}, h.vars.get? slot = some w → g.vars.get? slot = some w ∨
    g.vars.get? slot = none ∧
      ((∃ name origin v, g.lookup m name = some origin ∧ g.vars.get? origin = some v ∧
          w = { home := d, name := some name, inputs := v.inputs, rule := v.rule }) ∨
        ∃ b ∈ injections, w = { home := d, name := some b.newName, rule := .importing b.name source })

/-- A variable that has a name in a module is among those that are copied. -/
theorem Sound.mem_named {g : Graph σ} (hg : g.Sound) {m : ModuleId} {name : String} {slot : Slot}
    {v : Variable σ} (hname : g.lookup m name = some slot) (hv : g.vars.get? slot = some v) :
    (name, v) ∈ g.named m := by
  obtain ⟨w, hw, -, hown⟩ := hg.named hname
  obtain rfl : v = w := Option.some.inj (hv.symm.trans hw)
  unfold Graph.named
  rw [List.mem_filterMap]
  exact ⟨(slot, v), Slots.mem_toList.mpr hv, by simp [hown, hname]⟩

/-- The variables to be copied, by name: those that the names of the module lead to. -/
theorem Sound.find?_named {g : Graph σ} (hg : g.Sound) (m : ModuleId) (name : String) :
    (g.named m).reverse.find? (fun place => place.1 = name) =
      ((g.lookup m name).bind g.vars.get?).map fun v => (name, v) := by
  cases hfind : (g.named m).reverse.find? fun place => place.1 = name with
  | some place =>
      obtain ⟨own, v⟩ := place
      obtain rfl : own = name := by simpa using List.find?_some hfind
      have hmem : (own, v) ∈ g.named m := List.mem_reverse.mp (List.mem_of_find?_eq_some hfind)
      obtain ⟨slot, hv, hlookup⟩ := get?_of_mem_named hmem
      simp [hlookup, hv]
  | none =>
      cases hlookup : g.lookup m name with
      | none => rfl
      | some slot =>
          obtain ⟨v, hv, -⟩ := hg.named hlookup
          rw [List.find?_eq_none] at hfind
          have hmem := hfind (name, v) (List.mem_reverse.mpr (hg.mem_named hlookup hv))
          simp at hmem

/-- What is held last for a name: an import for an alias, else a copy of the variable that has the name. -/
theorem Sound.find?_holdings {g : Graph σ} (hg : g.Sound) (m : ModuleId) (injections : List Binding)
    (source : ModuleId) (name : String) :
    (g.holdings m injections source).reverse.find? (fun held => held.name = name) =
      match injectionFor injections name with
      | some b => some ⟨name, [], .importing b.name source⟩
      | none => ((g.lookup m name).bind g.vars.get?).map fun v => ⟨name, v.inputs, v.rule⟩ := by
  have hnamed := hg.find?_named m name
  unfold holdings injectionFor
  rw [List.reverse_append, List.find?_append, ← List.map_reverse, ← List.map_reverse, List.find?_map,
    List.find?_map]
  simp only [Function.comp_def]
  rw [hnamed]
  cases hb : injections.reverse.find? fun b => b.newName = name with
  | some b =>
      have hname : b.newName = name := by simpa using List.find?_some hb
      simp [hname]
  | none => simp [Function.comp_def]

theorem derived_derive {g : Graph σ} (hg : g.Sound) (m : ModuleId) (injections : List Binding)
    (source : ModuleId) :
    g.Derived m injections source (g.derive m injections source).1 (g.derive m injections source).2 := by
  rw [derive_eq]
  have hadded := added_addAll hg.newModule (hasModule_newModule_self g) (g.holdings m injections source)
  have hfind := hg.find?_holdings m injections source
  have hfresh : ¬ g.HasModule g.newModule.1 := by simp [HasModule, newModule]
  refine ⟨hadded.sound, hfresh, fun k => ?_, fun k hk => ?_, hadded.old, ?_, ?_, ?_, ?_, ?_⟩
  · rw [hadded.hasModule]
    obtain ⟨i⟩ := k
    simp only [HasModule, newModule, Array.size_push, ModuleId.mk.injEq]
    omega
  · have hne : k ≠ g.newModule.1 := by
      rintro rfl
      exact hfresh hk
    rw [hadded.scope k hne]
    have hlt : k.index < g.scopes.size := hk
    simp [scope, newModule, Array.getElem?_push, Nat.ne_of_lt hlt]
  · exact congrArg (fun k : Graph σ => { k with scopes := g.scopes }) hadded.rest
  · intro name b hb
    exact hadded.bound (by rw [hfind, hb])
  · intro name slot v hnone hlookup hv
    have hheld : (g.holdings m injections source).reverse.find? (fun held => held.name = name) =
        some ⟨name, v.inputs, v.rule⟩ := by
      rw [hfind, hnone, hlookup]
      simp [hv]
    exact hadded.bound hheld
  · intro name hnone hlookup
    have hheld : (g.holdings m injections source).reverse.find? (fun held => held.name = name) =
        none := by
      rw [hfind, hnone, hlookup]
      rfl
    rw [hadded.unbound hheld, lookup_newModule]
    simp [lookup, scope, newModule]
  · intro slot w hw
    rcases hadded.new hw with hold | ⟨hdead, held, hheld, rfl⟩
    · exact Or.inl hold
    · refine Or.inr ⟨hdead, ?_⟩
      rcases List.mem_append.mp hheld with hcopy | hinjected
      · obtain ⟨⟨name, v⟩, hnamed, rfl⟩ := List.mem_map.mp hcopy
        obtain ⟨origin, hv, hlookup⟩ := get?_of_mem_named hnamed
        exact Or.inl ⟨name, origin, v, hlookup, hv, rfl⟩
      · obtain ⟨b, hb, rfl⟩ := List.mem_map.mp hinjected
        exact Or.inr ⟨b, hb, rfl⟩

/-- What was not there before lives in the derived module. -/
theorem Derived.home_of_dead {g h : Graph σ} {m source d : ModuleId} {injections : List Binding}
    (hd : g.Derived m injections source d h) {slot : Slot} {w : Variable σ}
    (hdead : g.vars.get? slot = none) (hw : h.vars.get? slot = some w) : w.home = d := by
  rcases hd.new hw with hold | ⟨-, ⟨name, origin, v, -, -, rfl⟩ | ⟨b, -, rfl⟩⟩
  · rw [hdead] at hold
    cases hold
  · rfl
  · rfl

end CellGraph.Graph
