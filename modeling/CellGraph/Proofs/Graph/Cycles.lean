import CellGraph.Proofs.Graph.Settling

/-!
# Cycles and observers

A variable on a cycle has a circular fault for its value, and the fault names the variable at which the
path closed. So two roots that enter a cycle at different places make its variables read different
faults, and each pass runs them again: the graph does not settle, and no name has a value, also none
that has nothing to do with the cycle.

That is the only way to fail. A graph settles exactly when it is steady, and then it does not matter for
any value which variables are observed: those of a cycle might as well not be.
-/

namespace CellGraph.Graph

variable {σ : Type}

/-! ## Fewer observers -/

/-- A variable without its observer, if it is to be hidden. -/
def hide (hidden : Slot → Bool) (slot : Slot) (v : Variable σ) : Variable σ :=
  if hidden slot then { v with observer := none } else v

/-- The graph without the observers of some variables. -/
def unobserve (g : Graph σ) (hidden : Slot → Bool) : Graph σ :=
  { g with vars := g.vars.map (hide hidden) }

/-- Hiding a variable changes its observer only. -/
theorem hide_eq (hidden : Slot → Bool) (slot : Slot) (v : Variable σ) :
    ∃ observer, hide hidden slot v = { v with observer } := by
  unfold hide
  split
  · exact ⟨none, rfl⟩
  · exact ⟨v.observer, rfl⟩

/-- Hiding makes no variable a root. -/
theorem isRoot_of_isRoot_hide {hidden : Slot → Bool} {slot : Slot} {v : Variable σ}
    (h : isRoot (hide hidden slot v) = true) : isRoot v = true := by
  unfold hide at h
  split at h
  · have hname : v.name.isNone = true := by simpa [isRoot] using h
    simp [isRoot, hname]
  · exact h

theorem get?_unobserve (g : Graph σ) (hidden : Slot → Bool) (slot : Slot) :
    (g.unobserve hidden).vars.get? slot = (g.vars.get? slot).map (hide hidden slot) :=
  Slots.get?_map (hide hidden) g.vars slot

section Unobserve

variable {g : Graph σ} (hidden : Slot → Bool)

theorem agree_unobserve : (g.unobserve hidden).Agree g where
  lookup _ _ := rfl
  world := rfl
  vars slot := by
    rw [get?_unobserve, Option.map_map]
    congr 1
    funext v
    obtain ⟨observer, hhide⟩ := hide_eq hidden slot v
    rw [Function.comp_apply, hhide]
    rfl

/-- A graph with fewer observers is as ready as before. -/
theorem Ready.unobserve (hg : g.Ready) : (g.unobserve hidden).Ready := by
  have hvars : ∀ {slot w}, (g.unobserve hidden).vars.get? slot = some w →
      ∃ v observer, g.vars.get? slot = some v ∧ w = { v with observer } := by
    intro slot w hw
    rw [get?_unobserve] at hw
    obtain ⟨v, hv, rfl⟩ := Option.map_eq_some_iff.mp hw
    obtain ⟨observer, hhide⟩ := hide_eq hidden slot v
    exact ⟨v, observer, hv, hhide⟩
  refine ⟨⟨hg.sound.slots.map (hide hidden), ?_, ?_⟩, ?_, ?_⟩
  · intro slot w hw
    obtain ⟨v, observer, hv, rfl⟩ := hvars hw
    exact (hg.sound.home hv : g.HasModule v.home)
  · intro m name slot hname
    obtain ⟨v, hv, hhome, hown⟩ := hg.sound.named (g := g) hname
    obtain ⟨observer, hhide⟩ := hide_eq hidden slot v
    refine ⟨{ v with observer }, ?_, hhome, hown⟩
    rw [get?_unobserve, hv, Option.map_some, hhide]
  · intro slot w hw
    obtain ⟨v, observer, hv, rfl⟩ := hvars hw
    exact (hg.rules hv : v.rule.Satisfies _)
  · intro slot w cache hw hcache
    obtain ⟨v, observer, hv, rfl⟩ := hvars hw
    exact hg.caches (v := v) hv hcache

theorem mem_roots {slot : Slot} :
    slot ∈ g.roots ↔ ∃ v, g.vars.get? slot = some v ∧ isRoot v = true := by
  unfold roots
  simp only [List.mem_map, List.mem_filter, Prod.exists, exists_and_right, exists_eq_right,
    Slots.mem_toList]

/-- Fewer observers are fewer visits. -/
theorem RootVisit.of_unobserve {path : List Slot} {slot : Slot}
    (hvisit : (g.unobserve hidden).RootVisit path slot) : g.RootVisit path slot := by
  obtain ⟨root, hroot, hmeets⟩ := hvisit
  obtain ⟨w, hw, hrooted⟩ := mem_roots.mp hroot
  rw [get?_unobserve] at hw
  obtain ⟨v, hv, rfl⟩ := Option.map_eq_some_iff.mp hw
  have hroot : root ∈ g.roots := mem_roots.mpr ⟨v, hv, isRoot_of_isRoot_hide hrooted⟩
  exact ⟨root, hroot, (agree_unobserve hidden).meets hmeets⟩

theorem Steady.unobserve (hsteady : g.Steady) : (g.unobserve hidden).Steady := by
  intro path path' slot hvisit hvisit'
  rw [(agree_unobserve hidden).stampsAt, (agree_unobserve hidden).stampsAt]
  exact hsteady path path' slot (hvisit.of_unobserve hidden) (hvisit'.of_unobserve hidden)

/-- In a steady graph, observers do not matter for values. -/
theorem Steady.value_unobserve (hsteady : g.Steady) (hg : g.Ready) (hpasses : 2 ≤ g.maxPasses)
    (m : ModuleId) (name : String) :
    sameResult (g.value m name).1 ((g.unobserve hidden).value m name).1 = true := by
  have hpasses' : 2 ≤ (g.unobserve hidden).maxPasses := hpasses
  have hvalue := value_same hg ((settle_ok_iff hg hpasses).mpr hsteady) m name
  have hvalue' := value_same (hg.unobserve hidden)
    ((settle_ok_iff (hg.unobserve hidden) hpasses').mpr (hsteady.unobserve hidden)) m name
  have hscratch : (g.unobserve hidden).scratchValue m name = g.scratchValue m name := by
    unfold scratchValue
    rw [(agree_unobserve hidden).lookup]
    cases g.lookup m name with
    | none => rfl
    | some slot => exact (agree_unobserve hidden).scratch [] slot
  rw [hscratch] at hvalue'
  exact sameResult_trans hvalue (sameResult_symm hvalue')

end Unobserve

/-! ## Settling with cycles -/

/-- A graph whose bodies are functions of their inputs, whatever has happened to it before, settles
exactly when it is steady. If so, each value is the same as with any of the observers gone. If not, no
name has a value. -/
theorem settles_exactly_when_steady (world : World σ) (maxPasses : Nat) (ops : List (Op σ))
    (hvalid : Op.ValidAll { world, maxPasses } ops) :
    let g := Op.applyAll { world, maxPasses } ops
    (∀ slot v, g.vars.get? slot = some v → v.rule.Satisfies Body.Functional) → 2 ≤ g.maxPasses →
      (g.settle.1 = .ok () ↔ g.Steady) ∧
      (g.Steady → ∀ hidden m name,
        sameResult (g.value m name).1 ((g.unobserve hidden).value m name).1 = true) ∧
      (¬ g.Steady → ∀ m name, (g.value m name).1 = .error (.unsettled g.maxPasses)) := by
  intro g hrules hpasses
  have hanything : ∀ op ∈ ops, op.Satisfies fun _ : Body σ => True := by
    intro op _
    cases op with
    | edit edit => cases edit <;> trivial
    | settle => trivial
    | value m name => trivial
  have hkept : g.Kept fun _ => True := kept_applyAll world maxPasses ops hvalid hanything
  have hg : g.Ready := ⟨hkept.sound, fun {slot v} hv => hrules slot v hv, hkept.caches⟩
  have hiff := settle_ok_iff hg hpasses
  refine ⟨hiff, fun hsteady hidden => hsteady.value_unobserve hidden hg hpasses, ?_⟩
  intro hunsteady m name
  refine value_fst_of_settle_error ?_ m name
  exact (settleWithin_fst hg g.maxPasses).resolve_left fun hok => hunsteady (hiff.mp hok)

/-- A variable that reads itself, observed and read by an anonymous variable: the graph settles, and a
variable off the cycle has the value that it has with the cycle unobserved. -/
theorem settles_when_cycle_entered_once :
    let start : Graph Unit := { world := { host := () } }
    let ops : List (Op Unit) := [.edit .newModule, .edit (.newVariable ⟨0⟩ (some "watch")),
      .edit (.define ⟨0, 0⟩ (some "a") ["a"] .first), .edit (.newVariable ⟨0⟩ none),
      .edit (.define ⟨1, 0⟩ none ["a"] .first), .edit (.newVariable ⟨0⟩ none),
      .edit (.define ⟨2, 0⟩ (some "c") [] (.constant (.data .null))), .value ⟨0⟩ "c"]
    let g := Op.applyAll start ops
    Op.ValidAll start ops ∧
      (∀ slot v, g.vars.get? slot = some v → v.rule.Satisfies Body.Functional) ∧ 2 ≤ g.maxPasses ∧
      g.Steady ∧ sameResult (g.value ⟨0⟩ "c").1
        ((g.unobserve fun slot => slot.index = 0).value ⟨0⟩ "c").1 = true := by
  intro start ops g
  have hvalid : Op.ValidAll start ops := by decide +kernel
  have hbodies : ∀ op ∈ ops, op.Satisfies Body.Functional := by
    simp only [ops, List.forall_mem_cons, List.not_mem_nil, false_imp_iff, implies_true, and_true]
    exact ⟨trivial, trivial, Body.functional_first, trivial, Body.functional_first, trivial,
      Body.functional_constant _, trivial⟩
  have hrules : ∀ slot v, g.vars.get? slot = some v → v.rule.Satisfies Body.Functional :=
    fun slot v hv => (kept_applyAll { host := () } 64 ops hvalid hbodies).rules hv
  have hpasses : 2 ≤ g.maxPasses := by decide +kernel
  have hsettled : g.settle.1 = .ok () := by decide +kernel
  obtain ⟨hiff, hvalue, -⟩ :=
    settles_exactly_when_steady { host := () } 64 ops hvalid hrules hpasses
  have hsteady := hiff.mp hsettled
  exact ⟨hvalid, hrules, hpasses, hsteady, hvalue hsteady _ ⟨0⟩ "c"⟩

/-- A cycle of two variables that an anonymous variable enters at both: the graph never settles, and
neither has a constant off the cycle a value. -/
theorem cycle_entered_twice :
    let g : Graph Unit := Edit.applyAll { world := { host := () } } [.newModule, .newVariable ⟨0⟩ none,
      .define ⟨0, 0⟩ (some "a") ["b"] .first, .newVariable ⟨0⟩ none,
      .define ⟨1, 0⟩ (some "b") ["a"] .first, .newVariable ⟨0⟩ none,
      .define ⟨2, 0⟩ none ["a", "b"] .first, .newVariable ⟨0⟩ none,
      .define ⟨3, 0⟩ (some "c") [] (.constant (.data .null))]
    g.lookup ⟨0⟩ "c" = some ⟨3, 0⟩ ∧ (∀ next, ¬ g.DependsOn ⟨3, 0⟩ next) ∧
      g.settle.1 = .error (.unsettled 64) ∧
      sameResult (g.value ⟨0⟩ "c").1 (.error (.unsettled 64)) = true := by
  intro g
  refine ⟨by decide +kernel, ?_, by decide +kernel, by decide +kernel⟩
  have hreads : (g.vars.get? ⟨3, 0⟩).map Variable.reads = some [] := by decide +kernel
  rintro next ⟨v, read, hv, hread, -⟩
  rw [hv, Option.map_some] at hreads
  rw [Option.some.inj hreads] at hread
  cases hread

end CellGraph.Graph
