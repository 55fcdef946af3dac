import CellGraph.Proofs.Graph.Cycles
import CellGraph.Proofs.Graph.Rest
import CellGraph.Proofs.Mutables

/-!
# Assignment through a mutable

A mutable is declared in one module and imported, with its current value, from module to module; one
anonymous variable sets it. Variables that were read before the assignment have to be run again, the
mutable itself must not be made again, and the setting variable has to come to rest.

What is followed is the state of the mutable. As long as it has not been made, nothing is kept that could
speak of it (`Unmade`); afterwards it is one and the same, has its first or its last value, and the
versions that are kept say which (`Made`). Every evaluation leads on from such a state to another
(`Assigns.behaves`), along the dependencies. Once the setting variable has been run, no version changes any
more, so that the graph is calm and settles.
-/

namespace CellGraph

variable {σ : Type}

/-- An operation that leaves alone what the graph is made of. -/
def Op.Evaluates : Op σ → Prop
  | .edit _ => False
  | .settle | .value _ _ => True

namespace Graph

/-! ## Graphs before the first evaluation -/

/-- No variable keeps anything. -/
def Blank (g : Graph σ) : Prop :=
  ∀ {slot : Slot} {v : Variable σ}, g.vars.get? slot = some v → v.cache = none

theorem blank_applyAll (world : World σ) (maxPasses : Nat) (edits : List (Edit σ))
    (hvalid : Edit.ValidAll { world, maxPasses } edits) :
    (Edit.applyAll { world, maxPasses } edits).Sound ∧
      (Edit.applyAll { world, maxPasses } edits).Blank := by
  have hstart : Edited (fun _ _ => False) (fun _ => True) world ({ world, maxPasses } : Graph σ) := by
    refine ⟨sound_start world maxPasses, rfl, fun slot v hv => ?_⟩
    simp [Slots.get?] at hv
  have hedited := (closed_edited fun _ _ hfalse => hfalse.elim).applyAll edits hstart hvalid (by
    rintro (_ | _ | _ | _ | _ | _) _ <;> trivial)
  refine ⟨hedited.sound, fun {slot v} hv => ?_⟩
  rcases hedited.vars slot v hv with hfalse | hnew
  · exact hfalse.elim
  · exact hnew.2

/-! ## A mutable and the variable that sets it -/

/-- The variable is the origin, or imports it in some number of steps. -/
inductive Hands (g : Graph σ) (origin : Slot) : Slot → Prop where
  | origin : Hands g origin origin
  | importing {slot next : Slot} {v : Variable σ} {name : String} {source : ModuleId}
      (hv : g.vars.get? slot = some v) (hrule : v.rule = .importing name source)
      (hlookup : g.lookup source name = some next) (hnext : Hands g origin next) :
      Hands g origin slot

theorem Hands.eq_of_define {g : Graph σ} {origin slot : Slot} {v : Variable σ} {body : Body σ}
    (h : g.Hands origin slot) (hv : g.vars.get? slot = some v) (hrule : v.rule = .define body) :
    slot = origin := by
  cases h with
  | origin => rfl
  | importing hv' hrule' _ _ =>
      rw [hv] at hv'
      cases hv'
      rw [hrule] at hrule'
      cases hrule'

/-- The variables of a mutable, of its current value and of its assignment, and the two values. -/
structure Assignment where
  wrapper : Slot
  value : Slot
  setter : Slot
  initial : Json
  final : Json

/-- A graph, not evaluated yet, in which one variable sets a mutable and no other one sets any. -/
structure Assigns (g : Graph σ) (a : Assignment) : Prop where
  orderly : g.Orderly
  blank : g.Blank
  wrapper : ∃ v m name initial, g.vars.get? a.wrapper = some v ∧
    v.rule = .define Body.mutableWrapper ∧ v.reads = [(m, Intrinsic.mutable.name), (m, name)] ∧
    g.lookup m Intrinsic.mutable.name = none ∧ g.lookup m name = some initial ∧
    ∀ slots, ((g.evaluateAll slots).evaluate initial).1 = .ok (.data a.initial)
  value : ∃ v read, g.vars.get? a.value = some v ∧ v.rule = .define Body.mutableValue ∧
    v.reads = [read] ∧ g.lookup read.1 read.2 = some a.wrapper
  setter : ∃ v body read source, g.vars.get? a.setter = some v ∧ v.rule = .define body ∧
    Body.Sets a.final body ∧ v.reads = [read] ∧ g.lookup read.1 read.2 = some source ∧
    g.Hands a.wrapper source
  setter_ne_value : a.setter ≠ a.value
  quiet : ∀ {slot : Slot} {v : Variable σ}, g.vars.get? slot = some v → slot ≠ a.setter →
    v.rule.Satisfies Body.Quiet

/-! ## States of the mutable -/

/-- The mutable has not been made, and nothing has been kept of it. -/
structure Unmade (h : Graph σ) (a : Assignment) : Prop where
  wrapper : h.kept? a.wrapper = none
  value : h.kept? a.value = none
  setter : h.kept? a.setter = none

/-- The mutable has been made, once and for all. It has its first value or its last one; what is kept as
its current value was right at the version that is kept with it; and it has its last value if the setting
variable has been run. -/
structure Made (h : Graph σ) (a : Assignment) (r : Ref) : Prop where
  wrapper : ∃ cache, h.kept? a.wrapper = some cache ∧ cache.result = .ok (.mutable r) ∧
    Stamp.sameList cache.stamps
      [⟨.ok (.intrinsic .mutable), 0⟩, ⟨.ok (.data a.initial), 0⟩] = true
  heap : h.world.heap.Assignable r a.initial a.final
  value : ∀ cache, h.kept? a.value = some cache → ∃ heap : Heap, heap.Assignable r a.initial a.final ∧
    cache.stamps = [⟨.ok (.mutable r), heap.version r⟩] ∧ cache.result = .ok (heap.content r)
  setter : h.kept? a.setter ≠ none →
    h.world.heap.cells[r.index]? = some (Heap.assigned a.initial a.final)

/-- A graph that evaluation has led to, with the mutable in one of its states. -/
structure Reached (g : Graph σ) (a : Assignment) (h : Graph σ) : Prop where
  later : ∃ slots, h = g.evaluateAll slots
  state : h.Unmade a ∨ ∃ r, h.Made a r

/-- The way from one such graph to another: the mutable stays the same, and once it has been set no
version changes. -/
structure Advances (g : Graph σ) (a : Assignment) (h h' : Graph σ) : Prop where
  reached : g.Reached a h'
  made : ∀ {r}, h.Made a r → h'.Made a r
  set : h.kept? a.setter ≠ none → h'.kept? a.setter ≠ none ∧ h'.versionOf = h.versionOf

/-- The mutable has been made, and the setting variable has been run. -/
structure Done (g : Graph σ) (a : Assignment) (r : Ref) (h : Graph σ) : Prop where
  reached : g.Reached a h
  made : h.Made a r
  set : h.kept? a.setter ≠ none

section States

variable {g h h' : Graph σ} {a : Assignment} {r : Ref}

theorem advances_refl (hh : g.Reached a h) : g.Advances a h h where
  reached := hh
  made hmade := hmade
  set hset := ⟨hset, rfl⟩

theorem Advances.trans {h₁ h₂ h₃ : Graph σ} (h₁₂ : g.Advances a h₁ h₂) (h₂₃ : g.Advances a h₂ h₃) :
    g.Advances a h₁ h₃ where
  reached := h₂₃.reached
  made hmade := h₂₃.made (h₁₂.made hmade)
  set hset := by
    obtain ⟨hset₂, hversion₂⟩ := h₁₂.set hset
    obtain ⟨hset₃, hversion₃⟩ := h₂₃.set hset₂
    exact ⟨hset₃, hversion₃.trans hversion₂⟩

theorem Reached.orderly (hg : g.Orderly) (hh : g.Reached a h) : h.Orderly ∧ g.Alike h := by
  obtain ⟨slots, rfl⟩ := hh.later
  exact hg.evaluateAll slots

theorem Reached.later_evaluate (hh : g.Reached a h) (slot : Slot) :
    ∃ slots, (h.evaluate slot).2 = g.evaluateAll slots := by
  obtain ⟨slots, rfl⟩ := hh.later
  exact ⟨slots ++ [slot], (evaluateAll_concat g slots slot).symm⟩

/-- What keeps nothing new of the mutable and does not set it leaves it in its state. -/
theorem Made.of_kept (hmade : h.Made a r) (hwrapper : h'.kept? a.wrapper = h.kept? a.wrapper)
    (hvalue : h'.kept? a.value = h.kept? a.value) (hsetter : h'.kept? a.setter = h.kept? a.setter)
    (hext : h.world.heap.Extends h'.world.heap) : h'.Made a r where
  wrapper := hwrapper ▸ hmade.wrapper
  heap := hmade.heap.extends hext
  value := hvalue ▸ hmade.value
  setter hset := hext.cells (hmade.setter (hsetter ▸ hset))

/-- There is only one mutable that the wrapper keeps. -/
theorem Made.eq {r' : Ref} (hmade : h.Made a r) (hmade' : h.Made a r') : r' = r := by
  obtain ⟨cache, hcache, hr, -⟩ := hmade.wrapper
  obtain ⟨cache', hcache', hr', -⟩ := hmade'.wrapper
  rw [hcache] at hcache'
  cases hcache'
  rw [hr] at hr'
  cases hr'
  rfl

theorem advances_of_made (hlater : ∃ slots, h' = g.evaluateAll slots) (hmade : h.Made a r)
    (hmade' : h'.Made a r)
    (hset : h.kept? a.setter ≠ none → h'.kept? a.setter ≠ none ∧ h'.versionOf = h.versionOf) :
    g.Advances a h h' where
  reached := ⟨hlater, Or.inr ⟨r, hmade'⟩⟩
  made hother := hmade.eq hother ▸ hmade'
  set := hset

theorem advances_of_kept (hstate : h.Unmade a ∨ ∃ r, h.Made a r)
    (hlater : ∃ slots, h' = g.evaluateAll slots)
    (hwrapper : h'.kept? a.wrapper = h.kept? a.wrapper) (hvalue : h'.kept? a.value = h.kept? a.value)
    (hsetter : h'.kept? a.setter = h.kept? a.setter) (hext : h.world.heap.Extends h'.world.heap) :
    g.Advances a h h' where
  reached := by
    refine ⟨hlater, hstate.imp (fun hunmade => ?_) ?_⟩
    · exact ⟨hwrapper.trans hunmade.wrapper, hvalue.trans hunmade.value, hsetter.trans hunmade.setter⟩
    · rintro ⟨r, hmade⟩
      exact ⟨r, hmade.of_kept hwrapper hvalue hsetter hext⟩
  made hmade := hmade.of_kept hwrapper hvalue hsetter hext
  set hset := ⟨hsetter ▸ hset, versionOf_of_extends hext⟩

/-- The version of the mutable counts the assignment if it changed the value. -/
theorem Done.version (hh : g.Done a r h) :
    h.world.heap.version r = if a.initial.same a.final then 0 else 1 := by
  rw [Heap.version, hh.made.setter hh.set, Heap.assigned]
  split <;> rfl

end States

theorem Ran.kept?_self {g : Graph σ} {slot : Slot} {v : Variable σ} {stamps : List Stamp}
    {out : Except Fault Value × Graph σ} (hran : g.Ran slot v stamps out) :
    out.2.kept? slot = some { stamps, result := out.1 } :=
  kept?_of_get? hran.self

theorem Ran.kept?_other {g : Graph σ} {slot other : Slot} {v : Variable σ} {stamps : List Stamp}
    {out : Except Fault Value × Graph σ} (hran : g.Ran slot v stamps out) (hother : other ≠ slot) :
    out.2.kept? other = g.kept? other := by
  rw [kept?, hran.others hother, kept?]

/-- To read a mutable alone is to read it with its version. -/
theorem readings_mutable {h : Graph σ} {name : ModuleId × String} {source : Slot} {r : Ref}
    (hlookup : h.lookup name.1 name.2 = some source) (hvalue : (h.evaluate source).1 = .ok (.mutable r)) :
    h.readings [name] = ([⟨.ok (.mutable r), (h.evaluate source).2.world.heap.version r⟩],
      (h.evaluate source).2) := by
  rw [readings_singleton hlookup, hvalue]
  rfl

/-! ## What an evaluation does to the mutable -/

/-- To evaluate the variable leads on, and gives the mutable if the variable hands it on. -/
def Behaves (g : Graph σ) (a : Assignment) (slot : Slot) : Prop :=
  ∀ {h : Graph σ}, g.Reached a h → g.Advances a h (h.evaluate slot).2 ∧
    (g.Hands a.wrapper slot →
      ∃ r, (h.evaluate slot).2.Made a r ∧ (h.evaluate slot).1 = .ok (.mutable r))

section Evaluating

variable {g h : Graph σ} {a : Assignment}

theorem advances_readings (hg : g.Orderly) {reads : List (ModuleId × String)}
    (hreads : ∀ read ∈ reads, ∀ next, g.lookup read.1 read.2 = some next → g.Behaves a next)
    (hh : g.Reached a h) : g.Advances a h (h.readings reads).2 := by
  induction reads generalizing h with
  | nil => exact advances_refl hh
  | cons first reads ih =>
      rw [List.forall_mem_cons] at hreads
      have hfirst : g.Advances a h (h.reading first).2 := by
        have hlookup' := (hh.orderly hg).2.lookup first.1 first.2
        cases hlookup : g.lookup first.1 first.2 with
        | none =>
            rw [reading_of_lookup_none (hlookup'.trans hlookup)]
            exact advances_refl hh
        | some next =>
            rw [reading_of_lookup (hlookup'.trans hlookup)]
            exact (hreads.1 next hlookup hh).1
      rw [readings_cons]
      exact hfirst.trans (ih hreads.2 hfirst.reached)

variable (hg : g.Assigns a)
include hg

theorem Assigns.wrapper_ne_value : a.wrapper ≠ a.value := by
  intro heq
  obtain ⟨v, m, name, initial, hv, -, hreads, -⟩ := hg.wrapper
  obtain ⟨w, read, hw, -, hreads', -⟩ := hg.value
  rw [← heq, hv] at hw
  cases hw
  rw [hreads] at hreads'
  cases hreads'

theorem Assigns.wrapper_ne_setter : a.wrapper ≠ a.setter := by
  intro heq
  obtain ⟨v, m, name, initial, hv, -, hreads, -⟩ := hg.wrapper
  obtain ⟨w, body, read, source, hw, -, -, hreads', -⟩ := hg.setter
  rw [← heq, hv] at hw
  cases hw
  rw [hreads] at hreads'
  cases hreads'

/-- A run of the wrapper makes the mutable, with its first value. -/
theorem Assigns.made_of_ran {w : Variable σ} {out : Except Fault Value × Graph σ} (hunmade : h.Unmade a)
    (hrule : w.rule = .define Body.mutableWrapper)
    (hran : h.Ran a.wrapper w [⟨.ok (.intrinsic .mutable), 0⟩, ⟨.ok (.data a.initial), 0⟩] out) :
    ∃ r, out.2.Made a r ∧ out.1 = .ok (.mutable r) := by
  have hvalue := hran.result
  have hworld := hran.world
  rw [hrule] at hvalue hworld
  refine ⟨(h.world.heap.alloc (.data a.initial)).1,
    ⟨⟨_, hran.kept?_self, hvalue, Stamp.sameList_refl _⟩, Or.inl ?_, ?_, ?_⟩, hvalue⟩
  · rw [hworld]
    exact Heap.get?_alloc _ _
  · intro cache hcache
    rw [hran.kept?_other hg.wrapper_ne_value.symm, hunmade.value] at hcache
    cases hcache
  · intro hset
    rw [hran.kept?_other hg.wrapper_ne_setter.symm] at hset
    exact absurd hunmade.setter hset

/-- The mutable is made when it is evaluated for the first time, and not again. -/
theorem Assigns.behaves_wrapper (hnext : ∀ next, g.DependsOn a.wrapper next → g.Behaves a next) :
    g.Behaves a a.wrapper := by
  intro h hh
  obtain ⟨v, m, name, initial, hv, hrule, hreads, hbuiltin, hinitial, hresult⟩ := hg.wrapper
  obtain ⟨hho, halike⟩ := hh.orderly hg.orderly
  have hadvance : g.Advances a h (h.evaluate initial).2 :=
    (hnext initial ⟨v, (m, name), hv, by simp [hreads], hinitial⟩ hh).1
  have hread : h.readings v.reads =
      ([⟨.ok (.intrinsic .mutable), 0⟩, ⟨.ok (.data a.initial), 0⟩], (h.evaluate initial).2) := by
    have hvalue : (h.evaluate initial).1 = .ok (.data a.initial) := by
      obtain ⟨slots, rfl⟩ := hh.later
      exact hresult slots
    rw [hreads, readings_cons, reading_of_lookup_none ((halike.lookup _ _).trans hbuiltin),
      readings_cons, reading_of_lookup ((halike.lookup _ _).trans hinitial), hvalue]
    rfl
  obtain ⟨w, hw, hwv, hcases⟩ := hho.evaluate_cases halike hv
  rw [hread] at hw hcases
  have hrule' : w.rule = .define Body.mutableWrapper := (Variable.rule_eq_of_bare_eq hwv).trans hrule
  rcases hadvance.reached.state with hunmade | ⟨r, hmade⟩
  · -- nothing is kept yet, so the mutable is made now
    have hfresh : w.cache = none := (kept?_of_get? hw).symm.trans hunmade.wrapper
    rcases hcases with ⟨cache, hcache, -⟩ | ⟨-, hran⟩
    · rw [hfresh] at hcache
      cases hcache
    · obtain ⟨r, hmade, hvalue⟩ := hg.made_of_ran hunmade hrule' hran
      refine ⟨hadvance.trans ⟨⟨hh.later_evaluate a.wrapper, Or.inr ⟨r, hmade⟩⟩, fun hmade' => ?_,
        fun hset => absurd hunmade.setter hset⟩, fun _ => ⟨r, hmade, hvalue⟩⟩
      obtain ⟨cache, hcache, -⟩ := hmade'.wrapper
      rw [hunmade.wrapper] at hcache
      cases hcache
  · -- what is kept for the wrapper is kept for these stamps
    obtain ⟨cache, hkept, hvalue, hsame⟩ := hmade.wrapper
    rw [kept?_of_get? hw] at hkept
    rcases hcases with ⟨cache', hcache', -, heval⟩ | ⟨hmiss, -⟩
    · rw [hkept] at hcache'
      cases hcache'
      rw [heval]
      exact ⟨hadvance, fun _ => ⟨r, hmade, hvalue⟩⟩
    · rw [hmiss cache hkept] at hsame
      cases hsame

/-- The current value is kept with the version that it was read at. -/
theorem Assigns.behaves_value (hnext : ∀ next, g.DependsOn a.value next → g.Behaves a next) :
    g.Behaves a a.value := by
  intro h hh
  obtain ⟨v, read, hv, hrule, hreads, hlookup⟩ := hg.value
  obtain ⟨hho, halike⟩ := hh.orderly hg.orderly
  obtain ⟨hadvance, hwrapper⟩ :=
    hnext a.wrapper ⟨v, read, hv, by simp [hreads], hlookup⟩ hh
  obtain ⟨r, hmade, hvalue⟩ := hwrapper .origin
  refine ⟨hadvance.trans ?_,
    fun hhands => absurd (hhands.eq_of_define hv hrule).symm hg.wrapper_ne_value⟩
  obtain ⟨w, hw, hwv, hcases⟩ := hho.evaluate_cases halike hv
  rw [hreads, readings_mutable ((halike.lookup _ _).trans hlookup) hvalue] at hw hcases
  have hrule' : w.rule = .define Body.mutableValue := (Variable.rule_eq_of_bare_eq hwv).trans hrule
  rcases hcases with ⟨cache, hcache, -, heval⟩ | ⟨-, hran⟩
  · rw [heval]
    exact advances_refl hadvance.reached
  · have hresult := hran.result
    have hworld := hran.world
    rw [hrule'] at hresult hworld
    have hsetter := hran.kept?_other hg.setter_ne_value
    refine advances_of_made (hh.later_evaluate a.value) hmade ⟨?_, ?_, ?_, ?_⟩ fun hset => ⟨?_, ?_⟩
    · rw [hran.kept?_other hg.wrapper_ne_value]
      exact hmade.wrapper
    · rw [hworld]
      exact hmade.heap
    · intro cache hcache
      rw [hran.kept?_self] at hcache
      cases hcache
      exact ⟨_, hmade.heap, rfl, hresult⟩
    · rw [hsetter, hworld]
      exact hmade.setter
    · rwa [hsetter]
    · refine versionOf_of_extends ?_
      rw [hworld]
      exact Heap.extends_refl _

/-- The setting variable brings the mutable to its last value, and leaves it alone after that. -/
theorem Assigns.behaves_setter (hnext : ∀ next, g.DependsOn a.setter next → g.Behaves a next) :
    g.Behaves a a.setter := by
  intro h hh
  obtain ⟨v, body, read, source, hv, hrule, hbody, hreads, hlookup, hsource⟩ := hg.setter
  obtain ⟨hho, halike⟩ := hh.orderly hg.orderly
  obtain ⟨hadvance, hwrapper⟩ := hnext source ⟨v, read, hv, by simp [hreads], hlookup⟩ hh
  obtain ⟨r, hmade, hvalue⟩ := hwrapper hsource
  refine ⟨hadvance.trans ?_,
    fun hhands => absurd (hhands.eq_of_define hv hrule).symm hg.wrapper_ne_setter⟩
  obtain ⟨w, hw, hwv, hcases⟩ := hho.evaluate_cases halike hv
  rw [hreads, readings_mutable ((halike.lookup _ _).trans hlookup) hvalue] at hw hcases
  have hrule' : w.rule = .define body := (Variable.rule_eq_of_bare_eq hwv).trans hrule
  rcases hcases with ⟨cache, hcache, -, heval⟩ | ⟨-, hran⟩
  · rw [heval]
    exact advances_refl hadvance.reached
  · have hworld := hran.world
    rw [hrule'] at hworld
    -- the mutable that the body is given is one of the heap, so that the body sets it
    have hlt : r.index < (h.evaluate source).2.world.heap.cells.size := by
      rcases hmade.heap with hcell | hcell
      · exact (Array.getElem?_eq_some_iff.mp hcell).1
      · exact (Array.getElem?_eq_some_iff.mp hcell).1
    have hext : ((h.evaluate source).2.world.heap.assign r (.data a.final)).2.Extends
        (h.evaluate a.setter).2.world.heap := by
      rw [hworld]
      exact hbody.heap r _ hlt
    have hcell : (h.evaluate a.setter).2.world.heap.cells[r.index]? =
        some (Heap.assigned a.initial a.final) := hext.cells (Heap.get?_assign hmade.heap)
    refine advances_of_made (hh.later_evaluate a.setter) hmade
      ⟨?_, Or.inr hcell, ?_, fun _ => hcell⟩ fun hset => ⟨?_, ?_⟩
    · rw [hran.kept?_other hg.wrapper_ne_setter]
      exact hmade.wrapper
    · rw [hran.kept?_other hg.setter_ne_value.symm]
      exact hmade.value
    · rw [hran.kept?_self]
      exact Option.some_ne_none _
    · -- it was run before, so that the mutable has its last value already
      rw [Heap.assign_assigned (hmade.setter hset)] at hext
      exact versionOf_of_extends hext

/-- Every other variable leaves the mutable alone. -/
theorem Assigns.behaves_other {slot : Slot} (hwrapper : slot ≠ a.wrapper) (hvalue : slot ≠ a.value)
    (hsetter : slot ≠ a.setter) (hnext : ∀ next, g.DependsOn slot next → g.Behaves a next) :
    g.Behaves a slot := by
  intro h hh
  obtain ⟨hho, halike⟩ := hh.orderly hg.orderly
  cases hv : g.vars.get? slot with
  | none =>
      rw [evaluate_dead (halike.get?_eq_none hv)]
      refine ⟨advances_refl hh, fun hhands => ?_⟩
      cases hhands with
      | origin => exact absurd rfl hwrapper
      | importing hv' _ _ _ =>
          rw [hv] at hv'
          cases hv'
  | some v =>
      have hreads : g.Advances a h (h.readings v.reads).2 :=
        advances_readings hg.orderly (fun read hread next hlookup =>
          hnext next ⟨v, read, hv, hread, hlookup⟩) hh
      have hconcluded : g.Advances a (h.readings v.reads).2 (h.evaluate slot).2 := by
        obtain ⟨w, hw, hwv, hcases⟩ := hho.evaluate_cases halike hv
        rcases hcases with ⟨cache, hcache, -, heval⟩ | ⟨-, hran⟩
        · rw [heval]
          exact advances_refl hreads.reached
        · refine advances_of_kept hreads.reached.state (hh.later_evaluate slot)
            (hran.kept?_other hwrapper.symm) (hran.kept?_other hvalue.symm)
            (hran.kept?_other hsetter.symm) ?_
          rw [hran.world, Variable.rule_eq_of_bare_eq hwv]
          exact Rule.extends_world (hg.quiet hv hsetter) _ _
      refine ⟨hreads.trans hconcluded, fun hhands => ?_⟩
      cases hhands with
      | origin => exact absurd rfl hwrapper
      | @importing _ next v' name source hv' hrule hlookup hhands =>
          obtain rfl : v' = v := Option.some.inj (hv'.symm.trans hv)
          have hown : v'.reads = [(source, name)] := by simp [Variable.reads, hrule]
          have hlookup' : h.lookup source name = some next := (halike.lookup _ _).trans hlookup
          obtain ⟨r, hmade, hresult⟩ :=
            (hnext next ⟨v', (source, name), hv, by simp [hown], hlookup⟩ hh).2 hhands
          obtain ⟨u, hu, huv⟩ := halike.exists_of_get? hv
          have hsame := hho.evaluate_importing hu
            ((Variable.rule_eq_of_bare_eq huv).trans hrule) hlookup'
          -- what it read is all that has happened before it was concluded
          rw [hown, readings_singleton hlookup'] at hconcluded
          refine ⟨r, hconcluded.made hmade, ?_⟩
          rw [hresult] at hsame
          exact eq_of_sameResult_mutable hsame

/-- Every evaluation leads on. -/
theorem Assigns.behaves (slot : Slot) : g.Behaves a slot := by
  refine hg.orderly.induction (P := g.Behaves a) (fun slot hnext => ?_) slot
  by_cases hwrapper : slot = a.wrapper
  · subst hwrapper
    exact hg.behaves_wrapper hnext
  by_cases hvalue : slot = a.value
  · subst hvalue
    exact hg.behaves_value hnext
  by_cases hsetter : slot = a.setter
  · subst hsetter
    exact hg.behaves_setter hnext
  exact hg.behaves_other hwrapper hvalue hsetter hnext

/-! ## Once the mutable has been set -/

theorem Assigns.done_evaluate {r : Ref} (hh : g.Done a r h) (slot : Slot) :
    g.Done a r (h.evaluate slot).2 ∧ (h.evaluate slot).2.versionOf = h.versionOf := by
  have hadvance := (hg.behaves slot hh.reached).1
  obtain ⟨hset, hversion⟩ := hadvance.set hh.set
  exact ⟨⟨hadvance.reached, hadvance.made hh.made, hset⟩, hversion⟩

theorem Assigns.calm (r : Ref) : Calm (g.Done a r) where
  orderly hh := (hh.reached.orderly hg.orderly).1
  evaluate slot hh := hg.done_evaluate hh slot

theorem Assigns.evaluateAll (hh : g.Reached a h) (slots : List Slot) :
    g.Advances a h (h.evaluateAll slots) ∧
      (a.setter ∈ slots → (h.evaluateAll slots).kept? a.setter ≠ none) := by
  induction slots generalizing h with
  | nil => exact ⟨advances_refl hh, by simp⟩
  | cons slot slots ih =>
      have hfirst := (hg.behaves slot hh).1
      obtain ⟨hrest, hset⟩ := ih hfirst.reached
      refine ⟨hfirst.trans hrest, fun hmem => ?_⟩
      rcases List.mem_cons.mp hmem with rfl | hmem
      · obtain ⟨v, body, read, source, hv, -⟩ := hg.setter
        obtain ⟨hho, halike⟩ := hh.orderly hg.orderly
        obtain ⟨u, hu, -⟩ := halike.exists_of_get? hv
        exact (hrest.set (hho.kept?_evaluate hu)).1
      · exact hset hmem

/-- The first pass sets the mutable, provided that the setting variable is a root. -/
theorem Assigns.done_pass (hroot : a.setter ∈ g.roots) : ∃ r, g.Done a r g.pass := by
  have hstart : g.Reached a g := by
    have hkept : ∀ slot, g.kept? slot = none := by
      intro slot
      cases hv : g.vars.get? slot with
      | none => simp [kept?, hv]
      | some v => rw [kept?_of_get? hv, hg.blank hv]
    exact ⟨⟨[], rfl⟩, Or.inl ⟨hkept _, hkept _, hkept _⟩⟩
  obtain ⟨hadvance, hset⟩ := hg.evaluateAll hstart g.roots
  rcases hadvance.reached.state with hunmade | ⟨r, hmade⟩
  · exact absurd hunmade.setter (hset hroot)
  · exact ⟨r, hadvance.reached, hmade, hset hroot⟩

/-- What is kept as the current value is not out of date: its version would differ. -/
theorem Assigns.evaluate_value {r : Ref} (hh : g.Done a r h) :
    sameResult (h.evaluate a.value).1 (.ok (.data a.final)) = true := by
  obtain ⟨v, read, hv, hrule, hreads, hlookup⟩ := hg.value
  obtain ⟨hho, halike⟩ := hh.reached.orderly hg.orderly
  obtain ⟨r', hmade', hvalue⟩ := (hg.behaves a.wrapper hh.reached).2 .origin
  have hmid := (hg.done_evaluate hh a.wrapper).1
  obtain rfl : r' = r := hmid.made.eq hmade'
  have hlast : sameResult (.ok ((h.evaluate a.wrapper).2.world.heap.content r'))
      (.ok (.data a.final)) = true := by
    rw [Heap.content, hmid.made.setter hmid.set]
    exact Heap.same_assigned a.initial a.final
  obtain ⟨w, hw, hwv, hcases⟩ := hho.evaluate_cases halike hv
  rw [hreads, readings_mutable ((halike.lookup _ _).trans hlookup) hvalue] at hw hcases
  rcases hcases with ⟨cache, hcache, hsame, heval⟩ | ⟨-, hran⟩
  · rw [← kept?_of_get? hw] at hcache
    obtain ⟨heap, hheap, hstamps, hresult⟩ := hmid.made.value cache hcache
    have hversion : heap.version r' = (h.evaluate a.wrapper).2.world.heap.version r' := by
      simpa [hstamps, Stamp.sameList, Stamp.same, sameResult_refl] using hsame
    rw [heval, hresult, hmid.made.heap.content_eq hheap hversion]
    exact hlast
  · have hresult := hran.result
    rw [Variable.rule_eq_of_bare_eq hwv, hrule] at hresult
    rw [hresult]
    exact hlast

/-- The current value is imported as it is. -/
theorem Assigns.evaluate_hands {r : Ref} {slot : Slot} (hslot : g.Hands a.value slot)
    (hh : g.Done a r h) : sameResult (h.evaluate slot).1 (.ok (.data a.final)) = true := by
  obtain ⟨hho, halike⟩ := hh.reached.orderly hg.orderly
  induction hslot with
  | origin => exact hg.evaluate_value hh
  | importing hv hrule hlookup _ ih =>
      obtain ⟨u, hu, huv⟩ := halike.exists_of_get? hv
      exact sameResult_trans (hho.evaluate_importing hu ((Variable.rule_eq_of_bare_eq huv).trans hrule)
        ((halike.lookup _ _).trans hlookup)) ih

/-- Two more passes than the first settle the graph. -/
theorem Assigns.settle {r : Ref} (hpasses : 3 ≤ g.maxPasses) (hpass : g.Done a r g.pass)
    (hh : h = g ∨ g.Done a r h) : h.settle.1 = .ok () ∧ g.Done a r h.settle.2 := by
  rcases hh with rfl | hh
  · obtain ⟨passes, hcount⟩ : ∃ passes, h.maxPasses = passes + 1 := ⟨h.maxPasses - 1, by omega⟩
    unfold Graph.settle
    rw [hcount]
    simp only [settleWithin]
    split
    · exact ⟨rfl, hpass⟩
    · exact (hg.calm r).settleWithin_ok hpass (by omega)
  · have hcount : h.maxPasses = g.maxPasses := (hh.reached.orderly hg.orderly).2.maxPasses
    exact (hg.calm r).settleWithin_ok hh (by omega)

theorem Assigns.done_value {r : Ref} (hpasses : 3 ≤ g.maxPasses) (hpass : g.Done a r g.pass)
    (hh : h = g ∨ g.Done a r h) (m : ModuleId) (name : String) : g.Done a r (h.value m name).2 := by
  obtain ⟨hok, hdone⟩ := hg.settle hpasses hpass hh
  unfold Graph.value
  rcases hsettle : h.settle with ⟨outcome, h'⟩
  rw [hsettle] at hok hdone
  obtain rfl : outcome = .ok () := hok
  simp only at hdone ⊢
  split
  · exact hdone
  · exact (hg.done_evaluate hdone _).1

/-- Whatever is settled or read, the mutable stays set. -/
theorem Assigns.done_applyAll {r : Ref} (hpasses : 3 ≤ g.maxPasses) (hpass : g.Done a r g.pass)
    (hh : h = g ∨ g.Done a r h) (ops : List (Op σ)) (hops : ∀ op ∈ ops, op.Evaluates) :
    Op.applyAll h ops = g ∨ g.Done a r (Op.applyAll h ops) := by
  induction ops generalizing h with
  | nil => exact hh
  | cons op ops ih =>
      rw [List.forall_mem_cons] at hops
      refine ih (Or.inr ?_) hops.2
      cases op with
      | edit edit => exact absurd hops.1 id
      | settle => exact (hg.settle hpasses hpass hh).2
      | value m name => exact hg.done_value hpasses hpass hh m name

end Evaluating

end Graph

end CellGraph
