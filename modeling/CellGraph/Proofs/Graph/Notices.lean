import CellGraph.Proofs.Graph.Acts
import CellGraph.Proofs.Same
import Mathlib.Data.List.Chain

/-!
# The log of notices

An observer is told `pending` when its variable is registered, and each result that differs from the one
kept before. So the last thing it was told always fits what the variable keeps (`Told`): nothing or
`pending` where nothing is kept, and else the kept result. That is an invariant of every run, whatever the
bodies do (`Attended`), and it is what makes each new result differ from the one told before.

Both places that tell an observer, registering and keeping, set the variable and then write one line to the
log, so there is one step lemma for the two (`Attended.tell`). Everything else leaves the log alone.
-/

namespace CellGraph

variable {σ : Type}

namespace Event

/-- Whether two events tell the same result. -/
def same : Event → Event → Bool
  | fulfilled a, fulfilled b => a.same b
  | rejected a, rejected b => a == b
  | _, _ => false

end Event

namespace Graph

theorem same_eventOf (a b : Except Fault Value) : (eventOf a).same (eventOf b) = sameResult a b := by
  cases a <;> cases b <;> rfl

/-- What the observer of a variable has been told, from the oldest to the newest. -/
def heard (g : Graph σ) (slot : Slot) : List Event :=
  (g.log.filter fun notice => notice.slot = slot).map Notice.event

theorem heard_congr {g h : Graph σ} (hlog : h.log = g.log) (slot : Slot) : h.heard slot = g.heard slot := by
  unfold heard
  rw [hlog]

theorem heard_notify_of_ne {g : Graph σ} {slot other : Slot} (hne : other ≠ slot)
    (observer : Option String) (event : Event) :
    (g.notify other observer event).heard slot = g.heard slot := by
  cases observer with
  | none => rfl
  | some label => simp [heard, notify, hne]

theorem heard_notify_self (g : Graph σ) (slot : Slot) (label : String) (event : Event) :
    (g.notify slot (some label) event).heard slot = g.heard slot ++ [event] := by
  simp [heard, notify]

/-- A notice in the log is one of those of before, or the new one. -/
theorem mem_log_notify {g : Graph σ} {slot : Slot} {observer : Option String} {event : Event}
    {notice : Notice} (h : notice ∈ (g.notify slot observer event).log) :
    notice ∈ g.log ∨ notice.slot = slot ∧ observer = some notice.observer := by
  cases observer with
  | none => exact Or.inl h
  | some label =>
      rcases List.mem_append.mp h with hold | hnew
      · exact Or.inl hold
      · rw [List.mem_singleton.mp hnew]
        exact Or.inr ⟨rfl, rfl⟩

/-! ## The last thing told -/

/-- The last of some events fits what is kept. -/
def Told (events : List Event) : Option Cache → Prop
  | none => ∀ event ∈ events.getLast?, event = .pending
  | some cache => ∃ result, events.getLast? = some (eventOf result) ∧
      sameResult result cache.result = true

/-- A result is unchanged if it is the same as the kept one. -/
def Unchanged (result : Except Fault Value) : Option Cache → Prop
  | none => False
  | some cache => sameResult cache.result result = true

/-- An unchanged result may be kept in silence. -/
theorem Told.keep {events : List Event} {cache : Option Cache} (h : Told events cache)
    {result : Except Fault Value} (hsame : Unchanged result cache) (stamps : List Stamp) :
    Told events (some { stamps, result }) := by
  cases cache with
  | none => cases hsame
  | some cache =>
      obtain ⟨last, hlast, hkept⟩ := h
      exact ⟨last, hlast, sameResult_trans hkept hsame⟩

/-- A changed result differs from the last thing told. -/
theorem Told.differs {events : List Event} {cache : Option Cache} (h : Told events cache)
    {result : Except Fault Value} (hchanged : ¬ Unchanged result cache) :
    ∀ event ∈ events.getLast?, event.same (eventOf result) = false := by
  intro event hevent
  cases cache with
  | none =>
      rw [h event hevent]
      cases result <;> rfl
  | some cache =>
      obtain ⟨last, hlast, hkept⟩ := h
      rw [Option.mem_def, hlast] at hevent
      obtain rfl := Option.some.inj hevent
      rw [same_eventOf, Bool.eq_false_iff]
      intro hsame
      exact hchanged (sameResult_trans (sameResult_symm hkept) hsame)

theorem told_concat (events : List Event) (stamps : List Stamp) (result : Except Fault Value) :
    Told (events ++ [eventOf result]) (some { stamps, result }) :=
  ⟨result, List.getLast?_concat, sameResult_refl result⟩

theorem told_concat_pending (events : List Event) : Told (events ++ [.pending]) none := by
  intro event hevent
  rw [List.getLast?_concat] at hevent
  exact (Option.some.inj hevent).symm

/-! ## What writes to the log -/

theorem delete_log (g : Graph σ) (slot : Slot) : (g.delete slot).log = g.log := by
  cases hv : g.vars.get? slot with
  | none => rw [delete_dead hv]
  | some v =>
      rw [delete_live hv, releaseName]
      cases v.name <;> rfl

/-- A registration tells the observer that a result is to come. -/
theorem register_log {g h : Graph σ} {slot : Slot} {v : Variable σ} (hv : g.vars.get? slot = some v)
    {name : Option String} {inputs : List String} {rule : Rule σ}
    (hregister : g.register slot name inputs rule = .ok h) :
    h.log = (g.notify slot v.observer .pending).log := by
  rw [register, hv] at hregister
  obtain rfl := Except.ok.inj hregister
  cases name <;> cases hown : v.name <;> cases v.observer <;>
    simp [notify, changeScope, releaseName, hown]

/-- A result that has not changed is kept in silence. -/
theorem keep_unchanged {g : Graph σ} {slot : Slot} {v : Variable σ} (hv : g.vars.get? slot = some v)
    {result : Except Fault Value} (hsame : Unchanged result v.cache) (stamps : List Stamp) :
    g.keep slot stamps result =
      { g with vars := g.vars.set slot { v with cache := some { stamps, result } } } := by
  cases hcache : v.cache with
  | none =>
      rw [hcache] at hsame
      cases hsame
  | some cache =>
      rw [hcache] at hsame
      have hsame : sameResult cache.result result = true := hsame
      simp [keep, hv, hcache, hsame]

/-- The observer is told of a result that has changed. -/
theorem keep_changed {g : Graph σ} {slot : Slot} {v : Variable σ} (hv : g.vars.get? slot = some v)
    {result : Except Fault Value} (hchanged : ¬ Unchanged result v.cache) (stamps : List Stamp) :
    g.keep slot stamps result =
      { g with
        vars := g.vars.set slot { v with cache := some { stamps, result } }
        log := (g.notify slot v.observer (eventOf result)).log } := by
  cases hcache : v.cache with
  | none => cases hobserver : v.observer <;> simp [keep, hv, hcache, notify, hobserver]
  | some cache =>
      rw [hcache] at hchanged
      have hchanged : ¬ sameResult cache.result result = true := hchanged
      cases hobserver : v.observer <;> simp [keep, hv, hcache, hchanged, notify, hobserver]

/-! ## The invariant -/

/-- Observers have heard what they should: no handle is heard of before it is given out, nobody is told the
same result twice in a row, and the last thing told to the observer of a variable fits what the variable
keeps. -/
structure Attended (g : Graph σ) : Prop where
  sound : g.Sound
  issued : ∀ notice ∈ g.log, g.vars.Issued notice.slot
  chain : ∀ slot, (g.heard slot).IsChain fun a b => a.same b = false
  told : ∀ slot v label, g.vars.get? slot = some v → v.observer = some label →
    Told (g.heard slot) v.cache
  addressed : ∀ notice ∈ g.log, ∀ v, g.vars.get? notice.slot = some v →
    v.observer = some notice.observer

namespace Attended

theorem start (world : World σ) (maxPasses : Nat) : Attended ({ world, maxPasses } : Graph σ) where
  sound := sound_start world maxPasses
  issued notice h := absurd h List.not_mem_nil
  chain slot := List.IsChain.nil
  told slot v label hv := by simp [Slots.get?] at hv
  addressed notice h := absurd h List.not_mem_nil

/-- Nothing has been heard of a handle that was not given out. -/
theorem heard_of_not_issued {g : Graph σ} (hg : g.Attended) {slot : Slot}
    (hslot : ¬ g.vars.Issued slot) : g.heard slot = [] := by
  unfold heard
  rw [List.map_eq_nil_iff, List.filter_eq_nil_iff]
  intro notice hnotice hsame
  rw [decide_eq_true_eq] at hsame
  exact hslot (hsame ▸ hg.issued notice hnotice)

/-- Where the log stays, a variable may keep what has been told already, and a new one keeps nothing. -/
theorem of_log_eq {g h : Graph σ} (hg : g.Attended) (hsound : h.Sound)
    (hissued : ∀ slot, g.vars.Issued slot → h.vars.Issued slot) (hlog : h.log = g.log)
    (hvars : ∀ slot w, h.vars.get? slot = some w →
      (∃ v, g.vars.get? slot = some v ∧ w.observer = v.observer ∧
        ∀ events, Told events v.cache → Told events w.cache) ∨
      (¬ g.vars.Issued slot ∧ w.cache = none)) : h.Attended where
  sound := hsound
  issued notice hnotice := by
    rw [hlog] at hnotice
    exact hissued _ (hg.issued notice hnotice)
  chain slot := by
    rw [heard_congr hlog]
    exact hg.chain slot
  told slot w label hw hlabel := by
    rw [heard_congr hlog]
    rcases hvars slot w hw with ⟨v, hv, hobserver, hcache⟩ | ⟨hnew, hcache⟩
    · exact hcache _ (hg.told slot v label hv (hobserver ▸ hlabel))
    · rw [hg.heard_of_not_issued hnew, hcache]
      exact fun event hevent => absurd hevent (by simp)
  addressed notice hnotice w hw := by
    rw [hlog] at hnotice
    rcases hvars _ w hw with ⟨v, hv, hobserver, -⟩ | ⟨hnew, -⟩
    · rw [hobserver]
      exact hg.addressed notice hnotice v hv
    · exact absurd (hg.issued notice hnotice) hnew

/-- Where a variable is set and its observer is told something else than before, the invariant holds as
long as that fits what the variable keeps now. -/
theorem tell {g h : Graph σ} (hg : g.Attended) {slot : Slot} {v w : Variable σ} {event : Event}
    (hv : g.vars.get? slot = some v) (hsound : h.Sound) (hvars : h.vars = g.vars.set slot w)
    (hlog : h.log = (g.notify slot v.observer event).log) (hobserver : w.observer = v.observer)
    (hnew : ∀ last ∈ (g.heard slot).getLast?, Told (g.heard slot) v.cache → last.same event = false)
    (htold : Told (g.heard slot ++ [event]) w.cache) : h.Attended := by
  have hget : ∀ other, h.vars.get? other = if other = slot then some w else g.vars.get? other := by
    intro other
    rw [hvars, Slots.get?_set, hv]
    rfl
  have hself : ∀ label, v.observer = some label → h.heard slot = g.heard slot ++ [event] := by
    intro label hlabel
    rw [heard_congr hlog, hlabel, heard_notify_self]
  have hother : ∀ other, other ≠ slot ∨ v.observer = none → h.heard other = g.heard other := by
    rintro other (hne | hnone)
    · rw [heard_congr hlog, heard_notify_of_ne hne.symm]
    · rw [heard_congr hlog, hnone]
      rfl
  refine ⟨hsound, ?_, ?_, ?_, ?_⟩
  · intro notice hnotice
    rw [hvars]
    rw [hlog] at hnotice
    rcases mem_log_notify hnotice with hold | ⟨hslot, -⟩
    · exact (hg.issued notice hold).set slot w
    · refine Slots.Issued.set (Or.inl ?_) slot w
      rw [hslot, hv]
      rfl
  · intro other
    by_cases hslot : other = slot
    · subst hslot
      cases hlabel : v.observer with
      | none =>
          rw [hother other (Or.inr hlabel)]
          exact hg.chain other
      | some label =>
          rw [hself label hlabel, List.isChain_append]
          refine ⟨hg.chain other, List.IsChain.singleton _, fun last hlast first hfirst => ?_⟩
          obtain rfl : event = first := Option.some.inj hfirst
          exact hnew last hlast (hg.told other v label hv hlabel)
    · rw [hother other (Or.inl hslot)]
      exact hg.chain other
  · intro other u label hu hlabel
    rw [hget] at hu
    split at hu
    · next hslot =>
        obtain rfl := Option.some.inj hu
        rw [hslot, hself label (hobserver ▸ hlabel)]
        exact htold
    · next hslot =>
        rw [hother other (Or.inl hslot)]
        exact hg.told other u label hu hlabel
  · intro notice hnotice u hu
    rw [hget] at hu
    rw [hlog] at hnotice
    rcases mem_log_notify hnotice with hold | ⟨hslot, hlabel⟩
    · split at hu
      · next hslot =>
          obtain rfl := Option.some.inj hu
          rw [hobserver]
          exact hg.addressed notice hold v (hslot ▸ hv)
      · exact hg.addressed notice hold u hu
    · rw [if_pos hslot] at hu
      obtain rfl := Option.some.inj hu
      rw [hobserver, hlabel]

/-! ### Edits -/

theorem insert {g h : Graph σ} (hg : g.Attended) (hsound : h.Sound) (v : Variable σ)
    (hvars : h.vars = (g.vars.insert v).2) (hlog : h.log = g.log) (hcache : v.cache = none) :
    h.Attended := by
  refine hg.of_log_eq hsound (fun slot hslot => ?_) hlog fun slot w hw => ?_
  · rw [hvars]
    exact hslot.insert hg.sound.slots v
  · rw [hvars, Slots.get?_insert hg.sound.slots] at hw
    split at hw
    · next hslot =>
        obtain rfl := Option.some.inj hw
        rw [hslot]
        exact Or.inr ⟨Slots.not_issued_insert hg.sound.slots v, hcache⟩
    · exact Or.inl ⟨w, hw, rfl, fun _ htold => htold⟩

theorem delete {g : Graph σ} (hg : g.Attended) (slot : Slot) : (g.delete slot).Attended := by
  refine hg.of_log_eq (hg.sound.delete slot) (fun other hother => ?_) (delete_log g slot)
    fun other w hw => ?_
  · rw [delete_vars]
    exact hother.remove slot
  · rw [delete_vars, Slots.get?_remove] at hw
    split at hw
    · cases hw
    · exact Or.inl ⟨w, hw, rfl, fun _ htold => htold⟩

theorem register {g h : Graph σ} (hg : g.Attended) {slot : Slot} {name : Option String}
    {inputs : List String} {rule : Rule σ} (hregister : g.register slot name inputs rule = .ok h) :
    h.Attended := by
  cases hv : g.vars.get? slot with
  | none =>
      rw [register_dead hv] at hregister
      cases hregister
  | some v =>
      obtain ⟨h', hregister', hh⟩ := register_live hg.sound hv name inputs rule
      rw [hregister] at hregister'
      cases hregister'
      refine hg.tell hv (hh.sound hg.sound hv) hh.vars (register_log hv hregister) rfl ?_
        (told_concat_pending _)
      intro last _ _
      cases last <;> rfl

/-- Every edit keeps the invariant. -/
theorem closed : Edit.Closed (Attended (σ := σ)) fun _ => True where
  newModule hg := hg.of_log_eq hg.sound.newModule (fun _ hslot => hslot) rfl
    fun _ w hw => Or.inl ⟨w, hw, rfl, fun _ htold => htold⟩
  newVariable hg hm := hg.insert (hg.sound.newVariable hm _) _ rfl rfl rfl
  register hg _ hregister := hg.register hregister
  delete hg := hg.delete _
  addNamed hg hm _ := hg.insert (hg.sound.addNamed hm _ _ _) _ rfl rfl rfl
  rules _ _ := fun _ _ => trivial

/-! ### Evaluation -/

theorem run {g : Graph σ} (hg : g.Attended) (rule : Rule σ) (stamps : List Stamp) :
    (g.run rule stamps).2.Attended := by
  refine run_invariant (P := Attended) (fun slot hh => hh.delete slot) ?_ ?_ rule stamps
  · intro h world hh
    exact ⟨hh.sound.congr rfl rfl, hh.issued, hh.chain, hh.told, hh.addressed⟩
  · exact ⟨hg.sound.congr rfl rfl, hg.issued, hg.chain, hg.told, hg.addressed⟩

theorem keep {g : Graph σ} (hg : g.Attended) (slot : Slot) (stamps : List Stamp)
    (result : Except Fault Value) : (g.keep slot stamps result).Attended := by
  cases hv : g.vars.get? slot with
  | none => rwa [keep_dead hv]
  | some v =>
      have hsound := hg.sound.set_cache hv (some { stamps, result })
      by_cases hsame : Unchanged result v.cache
      · rw [keep_unchanged hv hsame]
        refine hg.of_log_eq (hsound g.log) (fun other hother => hother.set slot _) rfl
          fun other w hw => ?_
        rw [get?_set_cache hv] at hw
        split at hw
        · next hother =>
            obtain rfl := Option.some.inj hw
            exact Or.inl ⟨v, hother ▸ hv, rfl, fun _ htold => htold.keep hsame stamps⟩
        · exact Or.inl ⟨w, hw, rfl, fun _ htold => htold⟩
      · rw [keep_changed hv hsame]
        exact hg.tell hv (hsound _) rfl rfl rfl (fun last hlast htold => htold.differs hsame last hlast)
          (told_concat _ stamps result)

theorem conclude {g : Graph σ} (hg : g.Attended) (slot : Slot) (rule : Rule σ) (stamps : List Stamp) :
    (g.conclude slot rule stamps).2.Attended := by
  cases hcached : g.cached? slot stamps with
  | some result => rwa [conclude_hit hcached]
  | none =>
      rw [conclude_miss hcached]
      exact (hg.run rule stamps).keep slot stamps _

/-- Evaluation keeps the invariant, whatever the bodies do. -/
theorem evaluateWithin {g : Graph σ} (hg : g.Attended) (depth : Nat) (path : List Slot) (slot : Slot) :
    (evaluateWithin depth path slot g).2.Attended := by
  refine evaluateWithin_rel (R := fun g h => g.Attended → h.Attended) (fun _ hg => hg)
    (fun h₁₂ h₂₃ hg => h₂₃ (h₁₂ hg)) ?_ depth path slot g hg
  intro g₀ g s v stamps _ hstep hg₀
  exact (hstep hg₀).conclude s v.rule stamps

theorem op {g : Graph σ} (hg : g.Attended) {op : Op σ} (hvalid : op.Valid g) : (op.apply g).Attended := by
  have heval := fun {h : Graph σ} depth path slot (hh : h.Attended) => hh.evaluateWithin depth path slot
  cases op with
  | edit edit => exact closed.apply hg edit hvalid (Act.op (.edit edit)).satisfies_true
  | settle => exact settleWithin_invariant heval g.maxPasses hg
  | value m name => exact value_invariant heval m name hg

end Attended

end Graph

end CellGraph
