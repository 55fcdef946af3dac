import CellGraph.Ledger
import CellGraph.Proofs.Graph.Copies

/-!
# The nodes of a module

An assembly needs little of its platform: a new variable is a node of its module that was not there
before, each operation on a variable changes that node and no other one, and deriving a module leaves
the nodes of the module it is made for alone. `Platform.Nodes` says so for one module, in terms of what
each node is (`Role`). Graphs and ledgers have such nodes.

Whether a definition succeeds is for the platform to say (`accepts`); an import may always fail.
-/

namespace CellGraph

variable {S M V D O : Type}

/-- What a variable of a module is. -/
inductive Role (M D : Type) where
  /-- New, and without a definition. -/
  | blank
  | value (name : Option String) (inputs : List String) (definition : D)
  | imported (name : String) (newName : Option String) (source : M)

/-- The nodes of a module of a platform. -/
structure Platform.Nodes (P : Platform S M V D O) (home : M) where
  /-- The states that the platform gets into while the module is there. -/
  valid : S → Prop
  /-- The role of a variable, if it is alive and lives in the module. -/
  role : S → V → Option (Role M D)
  /-- The definitions that a new variable can be given. -/
  accepts : Option String → List String → D → Prop
  newVariable : ∀ {s}, valid s → ∀ observer,
    valid (P.newVariable home observer s).2 ∧
    role s (P.newVariable home observer s).1 = none ∧
    role (P.newVariable home observer s).2 (P.newVariable home observer s).1 = some .blank ∧
    ∀ w, w ≠ (P.newVariable home observer s).1 → role (P.newVariable home observer s).2 w = role s w
  define : ∀ {s v}, valid s → role s v ≠ none → ∀ name inputs definition,
    valid (P.define v name inputs definition s).2 ∧
    ((P.define v name inputs definition s).1 = .ok () →
      role (P.define v name inputs definition s).2 v = some (.value name inputs definition)) ∧
    ∀ w, w ≠ v → role (P.define v name inputs definition s).2 w = role s w
  accepted : ∀ {s v name inputs definition}, valid s → role s v = some .blank →
    accepts name inputs definition → (P.define v name inputs definition s).1 = .ok ()
  importing : ∀ {s v}, valid s → role s v ≠ none → ∀ name newName source,
    valid (P.importing v name newName source s).2 ∧
    ((P.importing v name newName source s).1 = .ok () →
      role (P.importing v name newName source s).2 v = some (.imported name (some newName) source)) ∧
    ∀ w, w ≠ v → role (P.importing v name newName source s).2 w = role s w
  delete : ∀ {s}, valid s → ∀ v,
    valid (P.delete v s) ∧ role (P.delete v s) v = none ∧
    ∀ w, w ≠ v → role (P.delete v s) w = role s w
  derive : ∀ {s}, valid s → ∀ m injections,
    valid (P.derive m injections home s).2 ∧ role (P.derive m injections home s).2 = role s

namespace Platform.Nodes

variable {P : Platform S M V D O} {home : M}

/-- A step that leaves the nodes of the module alone. -/
def Keeps (T : P.Nodes home) (step : S → S) : Prop :=
  ∀ s, T.valid s → T.valid (step s) ∧ T.role (step s) = T.role s

/-- A resolver that leaves the nodes of the module alone when it is asked on behalf of the module. -/
def Spared (T : P.Nodes home) (resolve : Resolver S M O) : Prop :=
  ∀ request, request.home = home → T.Keeps fun s => (resolve request s).2

end Platform.Nodes

/-! ## Graphs -/

namespace Graph

variable {σ : Type}

/-- The role of a variable. -/
def roleOf (v : Variable σ) : Role ModuleId (Body σ) :=
  match v.rule with
  | .undefined => .blank
  | .define body => .value v.name v.inputs body
  | .importing name source => .imported name v.name source

/-- The role of a variable in a module. -/
def roleIn (home : ModuleId) (g : Graph σ) (slot : Slot) : Option (Role ModuleId (Body σ)) :=
  (g.vars.get? slot).bind fun v => if v.home = home then some (roleOf v) else none

theorem roleIn_of_get? {g : Graph σ} {slot : Slot} {v : Variable σ} (hv : g.vars.get? slot = some v)
    (home : ModuleId) : g.roleIn home slot = if v.home = home then some (roleOf v) else none := by
  rw [roleIn, hv, Option.bind_some]

theorem roleIn_of_dead {g : Graph σ} {slot : Slot} (hdead : g.vars.get? slot = none)
    (home : ModuleId) : g.roleIn home slot = none := by
  rw [roleIn, hdead, Option.bind_none]

/-- A variable with a role is alive and lives in the module. -/
theorem get?_of_roleIn {g : Graph σ} {home : ModuleId} {slot : Slot}
    (h : g.roleIn home slot ≠ none) : ∃ v, g.vars.get? slot = some v ∧ v.home = home := by
  cases hv : g.vars.get? slot with
  | none => exact absurd (roleIn_of_dead hv home) h
  | some v =>
      refine ⟨v, rfl, ?_⟩
      by_contra hhome
      exact h (by rw [roleIn_of_get? hv, if_neg hhome])

/-- Variables that are the same have the same role. -/
theorem roleIn_congr {g h : Graph σ} {slot : Slot} (hvars : h.vars.get? slot = g.vars.get? slot)
    (home : ModuleId) : h.roleIn home slot = g.roleIn home slot := by
  rw [roleIn, roleIn, hvars]

/-- A variable that is put into a module gets its role there, and no other role changes. -/
theorem roleIn_insert {g h : Graph σ} (hg : g.Sound) {v : Variable σ}
    (hvars : h.vars = (g.vars.insert v).2) (home : ModuleId) (slot : Slot) :
    h.roleIn home slot =
      if slot = (g.vars.insert v).1 then if v.home = home then some (roleOf v) else none
      else g.roleIn home slot := by
  by_cases hslot : slot = (g.vars.insert v).1
  · rw [if_pos hslot]
    refine roleIn_of_get? ?_ home
    rw [hvars, Slots.get?_insert hg.slots, if_pos hslot]
  · rw [if_neg hslot]
    refine roleIn_congr ?_ home
    rw [hvars, Slots.get?_insert hg.slots, if_neg hslot]

/-- Registering a variable of a module gives it its new role, and no other role changes. -/
theorem roleIn_register {g : Graph σ} (hg : g.Sound) {home : ModuleId} {slot : Slot}
    (hlive : g.roleIn home slot ≠ none) (name : Option String) (inputs : List String) (rule : Rule σ) :
    ∃ h, g.register slot name inputs rule = .ok h ∧ h.Sound ∧ (∀ m, h.HasModule m ↔ g.HasModule m) ∧
      h.roleIn home slot = some (roleOf { home, name, inputs, rule }) ∧
      ∀ other, other ≠ slot → h.roleIn home other = g.roleIn home other := by
  obtain ⟨v, hv, hhome⟩ := get?_of_roleIn hlive
  obtain ⟨h, hregister, hh⟩ := register_live hg hv name inputs rule
  refine ⟨h, hregister, hh.sound hg hv, hh.hasModule, ?_, ?_⟩
  · rw [roleIn_of_get? (by rw [hh.get? hv, if_pos rfl]), if_pos hhome]
    rfl
  · intro other hother
    exact roleIn_congr (by rw [hh.get? hv, if_neg hother]) home

/-- A derivation does not touch the module that it is made for. -/
theorem roleIn_derive {g : Graph σ} (hg : g.Sound) {home : ModuleId} (hhome : g.HasModule home)
    (m : ModuleId) (injections : List Binding) :
    (g.derive m injections home).2.Sound ∧ (g.derive m injections home).2.HasModule home ∧
      (g.derive m injections home).2.roleIn home = g.roleIn home := by
  have hd := derived_derive hg m injections home
  refine ⟨hd.sound, (hd.hasModule home).mpr (Or.inl hhome), funext fun slot => ?_⟩
  cases hv : g.vars.get? slot with
  | some v => exact roleIn_congr (by rw [hd.old hv, hv]) home
  | none =>
      rw [roleIn_of_dead hv]
      cases hw : (g.derive m injections home).2.vars.get? slot with
      | none => exact roleIn_of_dead hw home
      | some w =>
          -- what is new lives in the new module
          rw [roleIn_of_get? hw, if_neg]
          intro hsame
          rw [hd.home_of_dead hv hw] at hsame
          exact hd.fresh (hsame ▸ hhome)

/-- Deleting a variable takes its role, and no other one. -/
theorem roleIn_delete (g : Graph σ) (home : ModuleId) (slot other : Slot) :
    (g.delete slot).roleIn home other = if other = slot then none else g.roleIn home other := by
  by_cases hother : other = slot
  · rw [if_pos hother]
    exact roleIn_of_dead (by rw [delete_vars, Slots.get?_remove, if_pos hother]) home
  · rw [if_neg hother]
    exact roleIn_congr (by rw [delete_vars, Slots.get?_remove, if_neg hother]) home

/-- The nodes of a module of a graph that is a part of a larger state. A graph takes every definition. -/
def nodesIn {get : S → Graph σ} {put : Graph σ → S → S} (hget : ∀ g s, get (put g s) = g)
    (home : ModuleId) : (platformIn get put).Nodes home where
  valid s := (get s).Sound ∧ (get s).HasModule home
  role s := (get s).roleIn home
  accepts _ _ _ := True
  newVariable {s} hs observer := by
    simp only [platformIn, hget]
    have hrole := roleIn_insert (h := ((get s).newVariable home observer).2) hs.1 rfl home
    refine ⟨⟨hs.1.newVariable hs.2 observer, hs.2⟩, ?_, ?_, ?_⟩
    · exact roleIn_of_dead (Slots.get?_insert_fresh hs.1.slots _) home
    · exact (hrole _).trans ((if_pos rfl).trans (if_pos rfl))
    · intro w hw
      exact (hrole w).trans (if_neg hw)
  define {s v} hs hv name inputs body := by
    obtain ⟨h, hregister, hsound, hmodules, hself, hothers⟩ :=
      roleIn_register hs.1 hv name inputs (.define body)
    simp only [platformIn, hget, attempt, Graph.define, hregister]
    exact ⟨⟨hsound, (hmodules home).mpr hs.2⟩, fun _ => hself, hothers⟩
  accepted {s v name inputs body} hs hv _ := by
    obtain ⟨h, hregister, -⟩ := roleIn_register hs.1 (by rw [hv]; simp) name inputs (.define body)
    simp only [platformIn, attempt, Graph.define, hregister]
  importing {s v} hs hv name newName source := by
    obtain ⟨h, hregister, hsound, hmodules, hself, hothers⟩ :=
      roleIn_register hs.1 hv (some newName) [] (.importing name source)
    simp only [platformIn, hget, attempt, Graph.importing, hregister]
    exact ⟨⟨hsound, (hmodules home).mpr hs.2⟩, fun _ => hself, hothers⟩
  delete {s} hs v := by
    simp only [platformIn, hget]
    have hrole := roleIn_delete (get s) home v
    exact ⟨⟨hs.1.delete v, (hasModule_delete _ _ _).mpr hs.2⟩, (hrole v).trans (if_pos rfl),
      fun w hw => (hrole w).trans (if_neg hw)⟩
  derive {s} hs m injections := by
    obtain ⟨hsound, hmodule, hrole⟩ := roleIn_derive hs.1 hs.2 m injections
    simp only [platformIn, hget]
    exact ⟨⟨hsound, hmodule⟩, hrole⟩

/-- The nodes of a module of a graph. -/
def nodes (home : ModuleId) : (platform : Platform (Graph σ) _ _ _ _).Nodes home :=
  nodesIn (fun _ _ => rfl) home

end Graph

/-! ## Ledgers -/

namespace Ledger

/-- What an entry says of the role of a variable in a module. -/
def Entry.tell (home v : Nat) (role : Option (Role Nat String)) : Entry → Option (Role Nat String)
  | newVariable m w _ => if w = v then if m = home then some .blank else none else role
  | define w name inputs definition =>
    if w = v then role.map fun _ => .value name inputs definition else role
  | importing w name newName source =>
    if w = v then role.map fun _ => .imported name (some newName) source else role
  | _ => role

/-- The role of a variable that is alive, as the log tells it. -/
def roleIn (home : Nat) (l : Ledger) (v : Nat) : Option (Role Nat String) :=
  if v ∈ l.live then l.log.foldl (Entry.tell home v) none else none

/-- A variable that is not alive has no role. -/
theorem roleIn_of_not_mem {l : Ledger} {v : Nat} (hv : v ∉ l.live) (home : Nat) :
    l.roleIn home v = none :=
  if_neg hv

/-- An entry tells of the variables that are alive. -/
theorem roleIn_write {l : Ledger} {v : Nat} (hv : v ∈ l.live) (home : Nat) (entry : Entry) :
    (l.write entry).roleIn home v = entry.tell home v (l.roleIn home v) := by
  simp [roleIn, write, hv]

/-- An entry that does not tell of a variable leaves its role. -/
theorem roleIn_write_of_tell {home : Nat} {entry : Entry} {v : Nat}
    (h : ∀ role, entry.tell home v role = role) (l : Ledger) :
    (l.write entry).roleIn home v = l.roleIn home v := by
  by_cases hv : v ∈ l.live
  · rw [roleIn_write hv, h]
  · rw [roleIn_of_not_mem hv, roleIn_of_not_mem (l := l.write entry) hv]

/-- A definition is written down, whether or not it fails. -/
theorem define_snd (v : Nat) (name : Option String) (inputs : List String) (definition : String)
    (l : Ledger) : (define v name inputs definition l).2 = l.write (.define v name inputs definition) := by
  unfold define
  simp only
  split <;> rfl

/-- So is an import. -/
theorem importing_snd (v : Nat) (name newName : String) (source : Nat) (l : Ledger) :
    (importing v name newName source l).2 = l.write (.importing v name newName source) := by
  unfold importing
  simp only
  split <;> rfl

/-- The entry of a variable of the module gives it its role, and leaves the others. -/
theorem roleIn_write_own {l : Ledger} {home v : Nat} (hv : l.roleIn home v ≠ none) (entry : Entry)
    {new : Role Nat String}
    (h : ∀ w role, entry.tell home w role = if v = w then role.map fun _ => new else role) :
    (l.write entry).roleIn home v = some new ∧
      ∀ w, w ≠ v → (l.write entry).roleIn home w = l.roleIn home w := by
  constructor
  · have hlive : v ∈ l.live := by
      by_contra hdead
      exact hv (roleIn_of_not_mem hdead home)
    obtain ⟨old, hold⟩ := Option.ne_none_iff_exists'.mp hv
    rw [roleIn_write hlive, h, if_pos rfl, hold, Option.map_some]
  · intro w hw
    exact roleIn_write_of_tell (fun role => by rw [h, if_neg (Ne.symm hw)]) l

/-- The nodes of a module of a ledger, whose variables are numbered in ascending order. A definition is
taken unless the name, or the definition of a variable without a name, is a broken one. -/
def nodes (home : Nat) : platform.Nodes home where
  valid l := ∀ v ∈ l.live, v < l.vars
  role := roleIn home
  accepts name _ definition := Text.occurs "broken".toList (name.getD definition).toList = false
  newVariable {l} hl observer := by
    simp only [platform]
    refine ⟨?_, roleIn_of_not_mem (fun hold => absurd (hl _ hold) (Nat.lt_irrefl _)) home, ?_, ?_⟩
    · intro v hv
      rcases List.mem_append.mp hv with hold | hnew
      · exact Nat.lt_succ_of_lt (hl v hold)
      · rw [List.mem_singleton.mp hnew]
        exact Nat.lt_succ_self _
    · rw [roleIn_write (by simp)]
      simp [Entry.tell]
    · intro w hw
      rw [roleIn_write_of_tell (fun role => by simp [Entry.tell, Ne.symm hw])]
      simp [roleIn, hw]
  define {l v} hl hv name inputs definition := by
    simp only [platform, define_snd]
    obtain ⟨hself, hothers⟩ := roleIn_write_own hv (.define v name inputs definition)
      (fun w role => rfl)
    exact ⟨hl, fun _ => hself, hothers⟩
  accepted {l v name inputs definition} _ _ haccepts := by
    simp only [platform, define, haccepts, Bool.false_eq_true, if_false]
  importing {l v} hl hv name newName source := by
    simp only [platform, importing_snd]
    obtain ⟨hself, hothers⟩ := roleIn_write_own hv (.importing v name newName source)
      (fun w role => rfl)
    exact ⟨hl, fun _ => hself, hothers⟩
  delete {l} hl v := by
    simp only [platform]
    refine ⟨fun w hw => hl w (List.mem_filter.mp hw).1, ?_, ?_⟩
    · exact roleIn_of_not_mem (by simp [write]) home
    · intro w hw
      rw [roleIn_write_of_tell (fun role => rfl)]
      simp [roleIn, hw]
  derive {l} hl m injections := by
    simp only [platform]
    refine ⟨hl, funext fun v => ?_⟩
    rw [roleIn_write_of_tell (fun role => rfl)]
    rfl

/-- An entry that tells of no variable touches no node. -/
theorem keeps_write {home : Nat} {entry : Entry} (h : ∀ v role, entry.tell home v role = role) :
    (nodes home).Keeps fun l => l.write entry :=
  fun l hl => ⟨hl, funext fun v => roleIn_write_of_tell (h v) l⟩

/-- Making the definition of a cell touches no node. -/
theorem keeps_compile (observe : Bool) (home : Nat) (cell : ValueCell) :
    (nodes home).Keeps fun l => ((kit observe).compile cell home l).2 := by
  have hwritten : (fun l => ((kit observe).compile cell home l).2) =
      fun l => l.write (.compile cell.name) := by
    funext l
    simp only [kit]
    split <;> rfl
  rw [hwritten]
  exact keeps_write fun v role => rfl

/-- Resolving a source touches no node. -/
theorem spared_resolve (home : Nat) : (nodes home).Spared resolve := by
  intro request _ l hl
  simp only [resolve]
  split
  · exact keeps_write (fun v role => rfl) l hl
  · -- the request is written down, and then the new module
    refine ⟨hl, funext fun v => ?_⟩
    exact (roleIn_write_of_tell (fun role => rfl) _).trans (roleIn_write_of_tell (fun role => rfl) l)

end Ledger

end CellGraph
