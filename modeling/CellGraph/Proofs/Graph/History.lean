import CellGraph.Proofs.Graph.Run

/-!
# The history of names

The last registration of a name wins. This module says what that means over a whole run of edits: the
registrations and deletions of a run are listed as its `history`, and the names of the graph are read
off that list. A name leads to the variable of its most recent registration, as long as nothing has
happened to that variable since; otherwise it is free, and a variable that lost the name earlier does
not get it back. A variable that was deleted stays deleted, also when its place is taken again.

`Tracks` ties a graph to a history. Each primitive change keeps it (`Tracks.register`,
`Tracks.delete`, `Tracks.addNamed`), hence every run does (`Tracks.applyAll`).
-/

namespace CellGraph

variable {σ : Type}

/-- What happens to a variable: it is registered in its module under a name or anonymously, or it is
deleted. -/
inductive Change where
  | registered (m : ModuleId) (name : Option String) (slot : Slot)
  | deleted (slot : Slot)
deriving DecidableEq

namespace Change

/-- The variable that a change is about. -/
def slot : Change → Slot
  | registered _ _ slot => slot
  | deleted slot => slot

/-- A change that registers a variable under a name of a module. -/
def Gives (m : ModuleId) (name : String) : Change → Prop
  | registered m' name' _ => m' = m ∧ name' = some name
  | deleted _ => False

/-- Whether a change is a deletion. -/
def isDeletion : Change → Bool
  | registered _ _ _ => false
  | deleted _ => true

/-- The changes of the past, from the oldest to the newest, hold `d`, and all later ones satisfy `P`. -/
def Since (past : List Change) (d : Change) (P : Change → Prop) : Prop :=
  ∃ before after, past = before ++ d :: after ∧ ∀ c ∈ after, P c

/-- One more change either is the one looked for, or has to satisfy the predicate. -/
theorem since_concat {past : List Change} {c d : Change} {P : Change → Prop} :
    Since (past ++ [c]) d P ↔ c = d ∨ (Since past d P ∧ P c) := by
  constructor
  · rintro ⟨before, after, hpast, hafter⟩
    rcases List.eq_nil_or_concat' after with rfl | ⟨after, last, rfl⟩
    · exact Or.inl (List.singleton_inj.mp (List.append_inj' hpast rfl).2)
    · rw [← List.cons_append, ← List.append_assoc] at hpast
      obtain ⟨hpast, hlast⟩ := List.append_inj' hpast rfl
      rw [List.singleton_inj.mp hlast]
      refine Or.inr ⟨⟨before, after, hpast, fun e he => hafter e ?_⟩, hafter last (by simp)⟩
      exact List.mem_append_left _ he
  · rintro (rfl | ⟨⟨before, after, rfl, hafter⟩, hc⟩)
    · exact ⟨past, [], rfl, by simp⟩
    · refine ⟨before, after ++ [c], by simp, fun e he => ?_⟩
      rcases List.mem_append.mp he with he | he
      · exact hafter e he
      · rw [List.mem_singleton.mp he]
        exact hc

/-- The variable was registered under the name, and nothing has happened to it since. -/
def Lasts (past : List Change) (m : ModuleId) (name : String) (slot : Slot) : Prop :=
  Since past (registered m (some name) slot) fun c => c.slot ≠ slot

/-- The registration of the variable under the name is the most recent one of that name in that module,
and nothing has happened to the variable since. -/
def Holds (past : List Change) (m : ModuleId) (name : String) (slot : Slot) : Prop :=
  Since past (registered m (some name) slot) fun c => ¬ c.Gives m name ∧ c.slot ≠ slot

/-- The variable was registered under the name, nothing has happened to it since, and a later
registration has given the name away. -/
def Superseded (past : List Change) (m : ModuleId) (name : String) (slot : Slot) : Prop :=
  ∃ before after, past = before ++ registered m (some name) slot :: after ∧
    (∀ c ∈ after, c.slot ≠ slot) ∧ ∃ c ∈ after, c.Gives m name

/-- A registration that lasts still holds its name, or has been superseded. -/
theorem Lasts.holds_or_superseded {past : List Change} {m : ModuleId} {name : String} {slot : Slot}
    (h : Lasts past m name slot) : Holds past m name slot ∨ Superseded past m name slot := by
  obtain ⟨before, after, hpast, hafter⟩ := h
  by_cases hgiven : ∃ c ∈ after, c.Gives m name
  · exact Or.inr ⟨before, after, hpast, hafter, hgiven⟩
  · exact Or.inl ⟨before, after, hpast, fun c hc => ⟨fun hgives => hgiven ⟨c, hc, hgives⟩, hafter c hc⟩⟩

end Change

namespace Edit

/-- The registrations that adding variables for holdings makes. -/
def registrations (m : ModuleId) : Graph σ → List (Graph.Holding σ) → List Change
  | _, [] => []
  | g, h :: holdings =>
    .registered m (some h.name) (g.addNamedSlot m h.name h.inputs h.rule) ::
      registrations m (g.addNamed m h.name h.inputs h.rule) holdings

/-- What an operation does to the variables of a graph. An operation that fails does nothing. -/
def changes (g : Graph σ) : Edit σ → List Change
  | newModule => []
  | newVariable _ _ => []
  | define slot name _ _ => ((g.vars.get? slot).map fun v => .registered v.home name slot).toList
  | importing slot _ newName _ =>
    ((g.vars.get? slot).map fun v => .registered v.home (some newName) slot).toList
  | delete slot => ((g.vars.get? slot).map fun _ => .deleted slot).toList
  | derive m injections source =>
    registrations g.newModule.1 g.newModule.2 (g.holdings m injections source)

/-- The changes of a run, from the oldest to the newest. -/
def history (g : Graph σ) : List (Edit σ) → List Change
  | [] => []
  | edit :: edits => edit.changes g ++ history (edit.apply g) edits

end Edit

/-! ## A graph and its history -/

/-- A graph that a history has led to: names are where the history says, the last change of a variable
with a name is its registration under that name, deleted variables are gone for good, and a place has
no more generations than there were deletions. -/
structure Tracks (g : Graph σ) (past : List Change) : Prop where
  sound : g.Sound
  lookup : ∀ m name slot, g.lookup m name = some slot ↔ Change.Holds past m name slot
  lasts : ∀ {slot : Slot} {v : Variable σ} {name : String}, g.vars.get? slot = some v →
    v.name = some name → Change.Lasts past v.home name slot
  retired : ∀ {slot : Slot}, Change.deleted slot ∈ past → g.vars.Retired slot
  generations : g.vars.GenerationsLe (past.countP Change.isDeletion)

namespace Tracks

/-- An empty graph has no history. -/
theorem start (world : World σ) (maxPasses : Nat) :
    Tracks ({ world, maxPasses } : Graph σ) [] where
  sound := Graph.sound_start world maxPasses
  lookup m name slot := by simp [Graph.lookup, Graph.scope, Change.Holds, Change.Since]
  lasts hv := by simp [Slots.get?] at hv
  retired h := by simp at h
  generations i entry h := by simp at h

/-- A new module is no change of a variable. -/
theorem newModule {g : Graph σ} {past : List Change} (hg : Tracks g past) :
    Tracks g.newModule.2 past where
  sound := hg.sound.newModule
  lookup m name slot := by rw [Graph.lookup_newModule, hg.lookup]
  lasts hv hname := hg.lasts hv hname
  retired h := hg.retired h
  generations := hg.generations

/-- A new variable has no name, so nothing is to be recorded. -/
theorem newVariable {g : Graph σ} {past : List Change} (hg : Tracks g past) {m : ModuleId}
    (hm : g.HasModule m) (observer : Option String) :
    Tracks (g.newVariable m observer).2 past where
  sound := hg.sound.newVariable hm observer
  lookup m name slot := hg.lookup m name slot
  lasts {slot v name} hv hname := by
    simp only [Graph.newVariable, Slots.get?_insert hg.sound.slots] at hv
    split at hv
    · cases hv
      cases hname
    · exact hg.lasts hv hname
  retired h := (hg.retired h).of_ages (Slots.ages_insert hg.sound.slots _)
  generations := hg.generations.insert hg.sound.slots _

/-- A registration of a variable is the next change. -/
theorem register {g h : Graph σ} {past : List Change} (hg : Tracks g past) {slot : Slot}
    {v : Variable σ} {name : Option String} {inputs : List String} {rule : Rule σ}
    (hv : g.vars.get? slot = some v) (hh : Graph.Registered g slot v name inputs rule h) :
    Tracks h (past ++ [.registered v.home name slot]) where
  sound := hh.sound hg.sound hv
  lookup m other s := by
    rw [Change.Holds, Change.since_concat, ← Change.Holds, ← hg.lookup, hh.lookup]
    simp only [Change.registered.injEq, Change.Gives, Change.slot]
    by_cases hnew : m = v.home ∧ name = some other
    · simp [hnew.1, hnew.2]
    · rw [if_neg hnew]
      -- any other name stays, unless the variable gives it up
      by_cases hold : g.lookup m other = some slot
      · simp only [hold]
        grind
      · grind
  lasts {s w n} hw hname := by
    rw [hh.get? hv] at hw
    rw [Change.Lasts, Change.since_concat, ← Change.Lasts]
    split at hw
    · next hs =>
        cases hw
        simp only at hname
        exact Or.inl (by rw [hs, hname])
    · next hs => exact Or.inr ⟨hg.lasts hw hname, fun hslot => hs hslot.symm⟩
  retired {s} hs := by
    rw [hh.vars]
    have hpast : Change.deleted s ∈ past := by simpa using hs
    exact (hg.retired hpast).of_ages (Slots.ages_set g.vars slot _)
  generations := by
    rw [hh.vars, List.countP_append]
    exact hg.generations.set slot _

/-- A deletion of a variable that is there is the next change. -/
theorem delete {g : Graph σ} {past : List Change} (hg : Tracks g past) {slot : Slot} {v : Variable σ}
    (hv : g.vars.get? slot = some v) : Tracks (g.delete slot) (past ++ [.deleted slot]) where
  sound := hg.sound.delete slot
  lookup m name s := by
    rw [Change.Holds, Change.since_concat, ← Change.Holds, ← hg.lookup, Graph.lookup_delete hg.sound]
    simp only [reduceCtorEq, Change.Gives, Change.slot, false_or, not_false_eq_true, true_and]
    by_cases hold : g.lookup m name = some slot
    · simp [hold]
    · rw [if_neg hold]
      grind
  lasts {s w n} hw hname := by
    rw [Graph.delete_vars, Slots.get?_remove] at hw
    rw [Change.Lasts, Change.since_concat, ← Change.Lasts]
    split at hw
    · cases hw
    · next hs => exact Or.inr ⟨hg.lasts hw hname, fun hslot => hs hslot.symm⟩
  retired {s} hs := by
    rw [Graph.delete_vars]
    rcases List.mem_append.mp hs with hs | hs
    · exact (hg.retired hs).of_ages (Slots.ages_remove g.vars slot)
    · obtain rfl : s = slot := by simpa using hs
      exact Slots.retired_remove hv
  generations := by
    rw [Graph.delete_vars, List.countP_append]
    exact hg.generations.remove slot

/-- A variable that starts with a name is registered under it. -/
theorem addNamed {g : Graph σ} {past : List Change} (hg : Tracks g past) {m : ModuleId}
    (hm : g.HasModule m) (name : String) (inputs : List String) (rule : Rule σ) :
    Tracks (g.addNamed m name inputs rule)
      (past ++ [.registered m (some name) (g.addNamedSlot m name inputs rule)]) where
  sound := hg.sound.addNamed hm name inputs rule
  lookup other n s := by
    rw [Change.Holds, Change.since_concat, ← Change.Holds, ← hg.lookup, Graph.lookup_addNamed hm]
    simp only [Change.registered.injEq, Option.some.injEq, Change.Gives, Change.slot]
    -- the handle of the new variable had no name before
    have hfresh := hg.sound.lookup_ne (Slots.get?_insert_fresh hg.sound.slots
      { home := m, name := some name, inputs, rule }) other n
    by_cases hnew : other = m ∧ name = n
    · simp [hnew.1, hnew.2]
    · rw [if_neg hnew]
      constructor
      · intro hs
        refine Or.inr ⟨hs, fun hgives => hnew ⟨hgives.1.symm, hgives.2⟩, ?_⟩
        rintro rfl
        exact hfresh hs
      · rintro (hs | hs)
        · exact absurd ⟨hs.1.symm, hs.2.1⟩ hnew
        · exact hs.1
  lasts {s w n} hw hname := by
    rw [Graph.addNamed_vars, Slots.get?_insert hg.sound.slots] at hw
    rw [Change.Lasts, Change.since_concat, ← Change.Lasts]
    split at hw
    · next hs =>
        cases hw
        obtain rfl := Option.some.inj hname
        exact Or.inl (by rw [hs]; rfl)
    · next hs => exact Or.inr ⟨hg.lasts hw hname, fun hslot => hs hslot.symm⟩
  retired {s} hs := by
    have hpast : Change.deleted s ∈ past := by simpa using hs
    exact (hg.retired hpast).of_ages (Slots.ages_insert hg.sound.slots _)
  generations := by
    rw [List.countP_append]
    exact hg.generations.insert hg.sound.slots _

/-! ## Runs -/

/-- Adding variables for holdings makes the registrations that are listed for it. -/
theorem addAll {m : ModuleId} (holdings : List (Graph.Holding σ)) {g : Graph σ} {past : List Change}
    (hg : Tracks g past) (hm : g.HasModule m) :
    Tracks (g.addAll m holdings) (past ++ Edit.registrations m g holdings) := by
  induction holdings generalizing g past with
  | nil => simpa [Edit.registrations, Graph.addAll] using hg
  | cons h holdings ih =>
      have hnext := ih (hg.addNamed hm h.name h.inputs h.rule) ((Graph.hasModule_addNamed ..).mpr hm)
      rwa [List.append_assoc] at hnext

/-- A registration that may fail is recorded when it succeeds. -/
theorem register_getD {g : Graph σ} {past : List Change} (hg : Tracks g past) (slot : Slot)
    (name : Option String) (inputs : List String) (rule : Rule σ) :
    Tracks ((g.register slot name inputs rule).toOption.getD g)
      (past ++ ((g.vars.get? slot).map fun v => .registered v.home name slot).toList) := by
  cases hv : g.vars.get? slot with
  | none =>
      rw [Graph.register_dead hv]
      simpa [Except.toOption] using hg
  | some v =>
      obtain ⟨h, hregister, hh⟩ := Graph.register_live hg.sound hv name inputs rule
      rw [hregister]
      exact hg.register hv hh

/-- The changes of an operation continue the history. -/
theorem apply {g : Graph σ} {past : List Change} (hg : Tracks g past) (edit : Edit σ)
    (hvalid : edit.Valid g) : Tracks (edit.apply g) (past ++ edit.changes g) := by
  cases edit with
  | newModule => simpa [Edit.changes, Edit.apply] using hg.newModule
  | newVariable m observer =>
      simpa [Edit.changes, Edit.apply] using hg.newVariable hvalid observer
  | define slot name inputs body => exact hg.register_getD slot name inputs (.define body)
  | importing slot name newName source =>
      exact hg.register_getD slot (some newName) [] (.importing name source)
  | delete slot =>
      simp only [Edit.apply, Edit.changes]
      cases hv : g.vars.get? slot with
      | none => simpa [Graph.delete_dead hv] using hg
      | some v => exact hg.delete hv
  | derive m injections source =>
      simp only [Edit.apply, Edit.changes, Graph.derive_eq]
      exact hg.newModule.addAll _ (Graph.hasModule_newModule_self g)

/-- The history of a run leads to its last graph. -/
theorem applyAll (edits : List (Edit σ)) {g : Graph σ} {past : List Change} (hg : Tracks g past)
    (hvalid : Edit.ValidAll g edits) :
    Tracks (Edit.applyAll g edits) (past ++ Edit.history g edits) := by
  induction edits generalizing g past with
  | nil => simpa [Edit.history, Edit.applyAll] using hg
  | cons edit edits ih =>
      obtain ⟨hedit, hedits⟩ := hvalid
      have hnext := ih (hg.apply edit hedit) hedits
      rwa [List.append_assoc] at hnext

end Tracks

/-- The last registration of a name wins, over every run of edits. A name leads to a variable that
lives in the module under that name. A variable with a name has it, or has lost it to a later
registration. A name leads exactly to the variable of its most recent registration, provided nothing
has happened to that variable since. Whatever was deleted stays so: it can be neither registered nor
deleted again. The generation of a handle in use is at most the number of deletions. -/
theorem last_registration_wins (world : World σ) (maxPasses : Nat) (edits : List (Edit σ))
    (hvalid : Edit.ValidAll { world, maxPasses } edits) :
    let g := Edit.applyAll { world, maxPasses } edits
    let past := Edit.history { world, maxPasses } edits
    (∀ m name slot, g.lookup m name = some slot →
      ∃ v, g.vars.get? slot = some v ∧ v.home = m ∧ v.name = some name) ∧
    (∀ slot v name, g.vars.get? slot = some v → v.name = some name →
      g.lookup v.home name = some slot ∨ Change.Superseded past v.home name slot) ∧
    (∀ m name slot, g.lookup m name = some slot ↔ Change.Holds past m name slot) ∧
    (∀ slot, Change.deleted slot ∈ past →
      (∀ name inputs body, g.define slot name inputs body = .error .deleted) ∧
      (∀ name newName source, g.importing slot name newName source = .error .deleted) ∧
      g.delete slot = g) ∧
    (∀ slot v, g.vars.get? slot = some v → slot.generation ≤ past.countP Change.isDeletion) := by
  intro g past
  have hg : Tracks g past := Tracks.applyAll edits (Tracks.start world maxPasses) hvalid
  refine ⟨fun m name slot => hg.sound.named, ?_, hg.lookup, ?_, ?_⟩
  · intro slot v name hv hname
    rw [hg.lookup]
    exact (hg.lasts hv hname).holds_or_superseded
  · intro slot hdeleted
    have hdead := (hg.retired hdeleted).get?
    exact ⟨fun name inputs body => Graph.register_dead hdead name inputs (.define body),
      fun name newName source => Graph.register_dead hdead (some newName) [] (.importing name source),
      Graph.delete_dead hdead⟩
  · intro slot v hv
    exact hg.generations _ _ (Slots.get?_eq_some_iff.mp hv)

/-- A name that two variables were given, the later of which was deleted: it is free again, its first
holder does not get it back, and the handle of the deleted variable stays dead although its place has
been taken by another one. -/
theorem last_registration_wins_after_reuse :
    let start : Graph Unit := { world := { host := () }, maxPasses := 2 }
    let edits : List (Edit Unit) := [.newModule, .newVariable ⟨0⟩ none, .newVariable ⟨0⟩ none,
      .define ⟨0, 0⟩ (some "a") [] (.constant .undefined), .importing ⟨1, 0⟩ "b" "a" ⟨0⟩,
      .delete ⟨1, 0⟩, .newVariable ⟨0⟩ none, .derive ⟨0⟩ [⟨"a", "c"⟩] ⟨0⟩]
    let g := Edit.applyAll start edits
    Edit.ValidAll start edits ∧ (g.vars.get? ⟨1, 1⟩).isSome ∧ g.lookup ⟨1⟩ "c" = some ⟨2, 0⟩ ∧
      g.lookup ⟨0⟩ "a" = none ∧ (∀ slot, ¬ Change.Holds (Edit.history start edits) ⟨0⟩ "a" slot) ∧
      Change.Superseded (Edit.history start edits) ⟨0⟩ "a" ⟨0, 0⟩ ∧ g.delete ⟨1, 0⟩ = g := by
  intro start edits g
  have hvalid : Edit.ValidAll start edits := by decide
  obtain ⟨-, hnamed, hlast, hgone, -⟩ := last_registration_wins { host := () } 2 edits hvalid
  have hfree : g.lookup ⟨0⟩ "a" = none := by decide
  refine ⟨hvalid, by decide, by decide, hfree, ?_, ?_, (hgone ⟨1, 0⟩ (by decide)).2.2⟩
  · intro slot hholds
    rw [← hlast] at hholds
    rw [hfree] at hholds
    cases hholds
  · refine (hnamed ⟨0, 0⟩ _ "a" rfl rfl).resolve_left ?_
    rw [hfree]
    simp

end CellGraph
