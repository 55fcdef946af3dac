import CellGraph.Proofs.Graph.Run

/-!
# What evaluation leaves alone

To evaluate a variable may run any number of bodies, and these may delete variables and change the
mutables. Whatever they do, no variable appears and none gets another name, input, rule or observer
(`Shrinks`); and what a variable keeps is what its rule made of the stamps kept with it, in the world
of that moment (`Kept`). Both hold through every run of operations, whatever its bodies do.

An evaluation is a sequence of `conclude` steps, one for each variable whose inputs have been read. So a
relation between graphs that is reflexive and transitive and that these steps respect holds between the
graphs before and after (`evaluateWithin_rel`).
-/

namespace CellGraph

variable {σ : Type}

/-- The names that a variable reads, each with the module that it is read in. -/
def Variable.reads (v : Variable σ) : List (ModuleId × String) :=
  match v.rule with
  | .importing name source => [(source, name)]
  | _ => v.inputs.map fun name => (v.home, name)

/-- A variable without what it keeps. -/
def Variable.bare (v : Variable σ) : Variable σ :=
  { v with cache := none }

theorem Variable.rule_eq_of_bare_eq {v w : Variable σ} (h : w.bare = v.bare) : w.rule = v.rule := by
  have hrule : w.bare.rule = v.bare.rule := by rw [h]
  exact hrule

theorem Variable.reads_eq_of_bare_eq {v w : Variable σ} (h : w.bare = v.bare) : w.reads = v.reads := by
  have hreads : w.bare.reads = v.bare.reads := by rw [h]
  exact hreads

theorem Variable.isRoot_eq_of_bare_eq {v w : Variable σ} (h : w.bare = v.bare) :
    Graph.isRoot w = Graph.isRoot v := by
  have hroot : Graph.isRoot w.bare = Graph.isRoot v.bare := by rw [h]
  exact hroot

/-- What a rule makes of the results that were read: the first fault among them, or what the body makes
of their values. -/
def Rule.result (world : World σ) (rule : Rule σ) (results : List (Except Fault Value)) :
    Except Fault Value :=
  match rule with
  | .undefined => .ok .undefined
  | .importing name _ => results.head?.getD (.error (.notDefined name))
  | .define body => (results.mapM id).bind fun inputs => (body inputs world).result

namespace Graph

/-! ## Evaluation in steps -/

/-- Reads names in modules, one after the other. -/
def readEach (eval : Evaluator σ) : List (ModuleId × String) → Graph σ → List Stamp × Graph σ
  | [], g => ([], g)
  | (m, name) :: reads, g =>
    let (stamp, g) := read eval m name g
    let (stamps, g) := readEach eval reads g
    (stamp :: stamps, g)

/-- To read the inputs of a variable is to read its names in their modules. -/
theorem readInputs_eq (eval : Evaluator σ) (v : Variable σ) (g : Graph σ) :
    readInputs eval v g = readEach eval v.reads g := by
  have hhome : ∀ (names : List String) (g : Graph σ), readAll eval v.home names g =
      readEach eval (names.map fun name => (v.home, name)) g := by
    intro names
    induction names with
    | nil => intro g; rfl
    | cons name names ih => intro g; simp [readAll, readEach, ih]
  cases hrule : v.rule with
  | undefined => simp only [readInputs, Variable.reads, hrule, hhome]
  | define body => simp only [readInputs, Variable.reads, hrule, hhome]
  | importing name source => simp [readInputs, Variable.reads, hrule, readAll, readEach]

/-- A variable on its own path is circular. -/
theorem evaluateWithin_mem {path : List Slot} {slot : Slot} (hmem : slot ∈ path) (depth : Nat)
    (g : Graph σ) :
    evaluateWithin depth path slot g = (.error (.circular (g.label slot)), g) := by
  unfold evaluateWithin
  rw [if_pos hmem]

/-- A variable that is not there has no value. -/
theorem evaluateWithin_dead {path : List Slot} {slot : Slot} {g : Graph σ} (hmem : slot ∉ path)
    (hdead : g.vars.get? slot = none) (depth : Nat) :
    evaluateWithin depth path slot g = (.error .deleted, g) := by
  unfold evaluateWithin
  rw [if_neg hmem, hdead]

/-- At depth zero nothing is read. -/
theorem evaluateWithin_zero (path : List Slot) (slot : Slot) (g : Graph σ) :
    (evaluateWithin 0 path slot g).2 = g := by
  unfold evaluateWithin
  split
  · rfl
  · split <;> rfl

/-- Any other variable has its inputs read, and then its result concluded from the stamps. -/
theorem evaluateWithin_succ {path : List Slot} {slot : Slot} {g : Graph σ} {v : Variable σ}
    (hmem : slot ∉ path) (hv : g.vars.get? slot = some v) (depth : Nat) :
    evaluateWithin (depth + 1) path slot g =
      (readEach (evaluateWithin depth (slot :: path)) v.reads g).2.conclude slot v.rule
        (readEach (evaluateWithin depth (slot :: path)) v.reads g).1 := by
  conv_lhs => unfold evaluateWithin
  simp only [if_neg hmem, hv, readInputs_eq]

section Relations

variable {R : Graph σ → Graph σ → Prop} (hrefl : ∀ g, R g g)
  (htrans : ∀ {g₁ g₂ g₃}, R g₁ g₂ → R g₂ g₃ → R g₁ g₃)
include hrefl htrans

/-- What each evaluation respects, reading respects. -/
theorem readEach_rel {eval : Evaluator σ} (heval : ∀ slot g, R g (eval slot g).2)
    (reads : List (ModuleId × String)) (g : Graph σ) : R g (readEach eval reads g).2 := by
  induction reads generalizing g with
  | nil => exact hrefl g
  | cons first reads ih =>
      have hread : R g (read eval first.1 first.2 g).2 := by
        unfold read
        split
        · exact heval _ g
        · exact hrefl g
      exact htrans hread (ih _)

/-- What each conclusion respects, evaluation respects. -/
theorem evaluateWithin_rel
    (hconclude : ∀ {g₀ g : Graph σ} {slot : Slot} {v : Variable σ} (stamps : List Stamp),
      g₀.vars.get? slot = some v → R g₀ g → R g₀ (g.conclude slot v.rule stamps).2)
    (depth : Nat) (path : List Slot) (slot : Slot) (g : Graph σ) :
    R g (evaluateWithin depth path slot g).2 := by
  induction depth generalizing path slot g with
  | zero =>
      rw [evaluateWithin_zero]
      exact hrefl g
  | succ depth ih =>
      by_cases hmem : slot ∈ path
      · rw [evaluateWithin_mem hmem]
        exact hrefl g
      · cases hv : g.vars.get? slot with
        | none =>
            rw [evaluateWithin_dead hmem hv]
            exact hrefl g
        | some v =>
            rw [evaluateWithin_succ hmem hv]
            exact hconclude _ hv (readEach_rel hrefl htrans (fun s h => ih (slot :: path) s h) _ g)

end Relations

/-! ## Conclusions -/

/-- A kept result is found exactly for stamps that are the same as those kept with it. -/
theorem cached?_eq_some_iff {g : Graph σ} {slot : Slot} {stamps : List Stamp}
    {result : Except Fault Value} :
    g.cached? slot stamps = some result ↔ ∃ v cache, g.vars.get? slot = some v ∧
      v.cache = some cache ∧ Stamp.sameList cache.stamps stamps = true ∧ cache.result = result := by
  unfold cached?
  constructor
  · intro h
    obtain ⟨v, hv, h⟩ := Option.bind_eq_some_iff.mp h
    obtain ⟨cache, hcache, h⟩ := Option.bind_eq_some_iff.mp h
    split at h
    · next hsame => exact ⟨v, cache, hv, hcache, hsame, Option.some.inj h⟩
    · cases h
  · rintro ⟨v, cache, hv, hcache, hsame, rfl⟩
    simp [hv, hcache, hsame]

/-- A kept result is handed out as it is. -/
theorem conclude_hit {g : Graph σ} {slot : Slot} {stamps : List Stamp} {result : Except Fault Value}
    (h : g.cached? slot stamps = some result) (rule : Rule σ) :
    g.conclude slot rule stamps = (result, g) := by
  simp [conclude, h]

/-- Without one, the rule is run and its result is kept. -/
theorem conclude_miss {g : Graph σ} {slot : Slot} {stamps : List Stamp}
    (h : g.cached? slot stamps = none) (rule : Rule σ) :
    g.conclude slot rule stamps =
      ((g.run rule stamps).1, (g.run rule stamps).2.keep slot stamps (g.run rule stamps).1) := by
  simp [conclude, h]

/-- The values of stamps are those of their results. -/
theorem values_eq (stamps : List Stamp) : values stamps = (stamps.map Stamp.result).mapM id := by
  induction stamps with
  | nil => rfl
  | cons stamp stamps ih =>
      rw [values, ih, List.map_cons, List.mapM_cons]
      cases stamp.result with
      | ok value => cases (stamps.map Stamp.result).mapM id <;> rfl
      | error fault => rfl

/-- A run gives what the rule makes of the results in the stamps. -/
theorem run_fst (g : Graph σ) (rule : Rule σ) (stamps : List Stamp) :
    (g.run rule stamps).1 = rule.result g.world (stamps.map Stamp.result) := by
  cases rule with
  | undefined => rfl
  | importing name source => simp [run, Rule.result]
  | define body =>
      simp only [run, call, Rule.result, ← values_eq]
      cases values stamps <;> rfl

/-- What deletions keep and what does not depend on the world, a run keeps once it is counted. -/
theorem run_invariant {P : Graph σ → Prop}
    (hdelete : ∀ {g : Graph σ} (slot : Slot), P g → P (g.delete slot))
    (hworld : ∀ {g : Graph σ} (world : World σ), P g → P { g with world })
    {g : Graph σ} (hcounted : P { g with runs := g.runs + 1 }) (rule : Rule σ) (stamps : List Stamp) :
    P (g.run rule stamps).2 := by
  cases rule with
  | undefined => exact hcounted
  | importing name source => exact hcounted
  | define body =>
      simp only [run, call]
      cases values stamps with
      | error fault => exact hcounted
      | ok inputs =>
          exact List.foldlRecOn _ delete (hworld _ hcounted) fun h hh slot _ => hdelete slot hh

/-- A variable that is not there keeps nothing. -/
theorem keep_dead {g : Graph σ} {slot : Slot} (hdead : g.vars.get? slot = none) (stamps : List Stamp)
    (result : Except Fault Value) : g.keep slot stamps result = g := by
  simp [keep, hdead]

/-- A variable that is there keeps the result; apart from that, only the log may change. -/
theorem keep_live {g : Graph σ} {slot : Slot} {v : Variable σ} (hv : g.vars.get? slot = some v)
    (stamps : List Stamp) (result : Except Fault Value) :
    ∃ log, g.keep slot stamps result =
      { g with vars := g.vars.set slot { v with cache := some { stamps, result } }, log } := by
  have hlog : ∀ (unchanged : Bool) (h : Graph σ), ∃ log,
      (if unchanged then h else h.notify slot v.observer (eventOf result)) = { h with log } := by
    intro unchanged h
    unfold notify
    cases unchanged with
    | true => exact ⟨h.log, rfl⟩
    | false =>
        cases v.observer with
        | none => exact ⟨h.log, rfl⟩
        | some observer => exact ⟨_, rfl⟩
  simp only [keep, hv]
  exact hlog _ _

/-! ## Counting runs -/

theorem delete_runs (g : Graph σ) (slot : Slot) : (g.delete slot).runs = g.runs := by
  cases hv : g.vars.get? slot with
  | none => rw [delete_dead hv]
  | some v =>
      rw [delete_live hv, releaseName]
      cases v.name <;> rfl

/-- The second graph is the first one, or a run has been counted on the way to it. -/
def Counted (g h : Graph σ) : Prop :=
  h = g ∨ g.runs < h.runs

theorem counted_refl (g : Graph σ) : g.Counted g := Or.inl rfl

theorem Counted.trans {g₁ g₂ g₃ : Graph σ} (h₁₂ : g₁.Counted g₂) (h₂₃ : g₂.Counted g₃) :
    g₁.Counted g₃ := by
  rcases h₁₂ with rfl | h₁₂
  · exact h₂₃
  · rcases h₂₃ with rfl | h₂₃
    · exact Or.inr h₁₂
    · exact Or.inr (Nat.lt_trans h₁₂ h₂₃)

/-- What has been counted is not taken back: a way that ends where it began has changed nothing. -/
theorem Counted.eq_of_back {g h : Graph σ} (hthere : g.Counted h) (hback : h.Counted g) : h = g := by
  rcases hthere with rfl | hlt
  · rfl
  · rcases hback with rfl | hlt'
    · rfl
    · omega

/-- A conclusion that nothing is kept for counts a run. -/
theorem runs_lt_conclude {g : Graph σ} {slot : Slot} {stamps : List Stamp}
    (hmiss : g.cached? slot stamps = none) (rule : Rule σ) :
    g.runs < (g.conclude slot rule stamps).2.runs := by
  have hrun : g.runs < (g.run rule stamps).2.runs := by
    refine run_invariant (P := fun h => g.runs < h.runs) ?_ ?_ (Nat.lt_succ_self _) rule stamps
    · intro h s hh
      rwa [delete_runs]
    · intro h world hh
      exact hh
  rw [conclude_miss hmiss]
  cases hv : (g.run rule stamps).2.vars.get? slot with
  | none => rwa [keep_dead hv]
  | some v =>
      obtain ⟨log, hkeep⟩ := keep_live hv stamps (g.run rule stamps).1
      rwa [hkeep]

/-- A conclusion that changes the graph has counted a run. -/
theorem conclude_counted (g : Graph σ) (slot : Slot) (rule : Rule σ) (stamps : List Stamp) :
    g.Counted (g.conclude slot rule stamps).2 := by
  cases hcached : g.cached? slot stamps with
  | some result => exact Or.inl (by rw [conclude_hit hcached])
  | none => exact Or.inr (runs_lt_conclude hcached rule)

/-- An evaluation that changes the graph has counted a run. -/
theorem evaluateWithin_counted (depth : Nat) (path : List Slot) (slot : Slot) (g : Graph σ) :
    g.Counted (evaluateWithin depth path slot g).2 := by
  refine evaluateWithin_rel (R := Counted) counted_refl Counted.trans ?_ depth path slot g
  intro g₀ g s v stamps _ h
  exact h.trans (conclude_counted g s v.rule stamps)

/-! ## What stays of the variables -/

/-- The second graph has no variables but those of the first, each as it was up to what it keeps. -/
def Shrinks (g h : Graph σ) : Prop :=
  ∀ (slot : Slot) (w : Variable σ), h.vars.get? slot = some w →
    ∃ v, g.vars.get? slot = some v ∧ w.bare = v.bare

theorem shrinks_refl (g : Graph σ) : g.Shrinks g :=
  fun _ w hw => ⟨w, hw, rfl⟩

theorem Shrinks.trans {g₁ g₂ g₃ : Graph σ} (h₁₂ : g₁.Shrinks g₂) (h₂₃ : g₂.Shrinks g₃) :
    g₁.Shrinks g₃ := by
  intro slot w hw
  obtain ⟨v, hv, hwv⟩ := h₂₃ slot w hw
  obtain ⟨u, hu, hvu⟩ := h₁₂ slot v hv
  exact ⟨u, hu, hwv.trans hvu⟩

theorem shrinks_delete (g : Graph σ) (slot : Slot) : g.Shrinks (g.delete slot) := by
  intro other w hw
  rw [delete_vars, Slots.get?_remove] at hw
  split at hw
  · cases hw
  · exact ⟨w, hw, rfl⟩

theorem shrinks_run (g : Graph σ) (rule : Rule σ) (stamps : List Stamp) :
    g.Shrinks (g.run rule stamps).2 :=
  run_invariant (P := g.Shrinks) (fun slot hh => hh.trans (shrinks_delete _ slot))
    (fun _ hh => hh) (shrinks_refl g) rule stamps

/-- What the handles find once a variable keeps another result. -/
theorem get?_set_cache {g : Graph σ} {slot : Slot} {v : Variable σ} (hv : g.vars.get? slot = some v)
    (cache : Option Cache) (other : Slot) :
    (g.vars.set slot { v with cache }).get? other =
      if other = slot then some { v with cache } else g.vars.get? other := by
  rw [Slots.get?_set, hv]
  rfl

theorem shrinks_keep (g : Graph σ) (slot : Slot) (stamps : List Stamp)
    (result : Except Fault Value) : g.Shrinks (g.keep slot stamps result) := by
  cases hv : g.vars.get? slot with
  | none =>
      rw [keep_dead hv]
      exact shrinks_refl g
  | some v =>
      obtain ⟨log, hkeep⟩ := keep_live hv stamps result
      rw [hkeep]
      intro other w hw
      rw [get?_set_cache hv] at hw
      split at hw
      · next hother =>
          cases hw
          exact ⟨v, by rw [hother, hv], rfl⟩
      · exact ⟨w, hw, rfl⟩

theorem shrinks_conclude (g : Graph σ) (slot : Slot) (rule : Rule σ) (stamps : List Stamp) :
    g.Shrinks (g.conclude slot rule stamps).2 := by
  cases hcached : g.cached? slot stamps with
  | some result =>
      rw [conclude_hit hcached]
      exact shrinks_refl g
  | none =>
      rw [conclude_miss hcached]
      exact (shrinks_run g rule stamps).trans (shrinks_keep _ slot stamps _)

/-- The invariant of a graph whose bodies satisfy `Q`: names lead where they should, the bodies are as
they should be, and what a variable keeps is what its rule made of the stamps, in the world of that
moment. -/
structure Kept (g : Graph σ) (Q : Body σ → Prop) : Prop where
  sound : g.Sound
  rules : ∀ {slot : Slot} {v : Variable σ}, g.vars.get? slot = some v → v.rule.Satisfies Q
  caches : ∀ {slot : Slot} {v : Variable σ} {cache : Cache}, g.vars.get? slot = some v →
    v.cache = some cache → ∃ world, cache.result = v.rule.result world (cache.stamps.map Stamp.result)

section Invariant

variable {Q : Body σ → Prop}

theorem Kept.imp {Q' : Body σ → Prop} {g : Graph σ} (hg : g.Kept Q)
    (hQ : ∀ body, Q body → Q' body) : g.Kept Q' :=
  ⟨hg.sound, fun hv body hbody => hQ body (hg.rules hv body hbody), hg.caches⟩

/-- Variables that have not changed, or that have a rule as it should be and keep nothing, are as the
invariant wants them. -/
theorem Kept.of_vars {g h : Graph σ} (hg : g.Kept Q) (hsound : h.Sound)
    (hvars : ∀ slot w, h.vars.get? slot = some w →
      g.vars.get? slot = some w ∨ (w.rule.Satisfies Q ∧ w.cache = none)) : h.Kept Q := by
  refine ⟨hsound, fun {slot w} hw => ?_, fun {slot w cache} hw hcache => ?_⟩
  · rcases hvars slot w hw with hold | hnew
    · exact hg.rules hold
    · exact hnew.1
  · rcases hvars slot w hw with hold | hnew
    · exact hg.caches hold hcache
    · rw [hnew.2] at hcache
      cases hcache

theorem Kept.delete {g : Graph σ} (hg : g.Kept Q) (slot : Slot) : (g.delete slot).Kept Q := by
  refine hg.of_vars (hg.sound.delete slot) fun other w hw => ?_
  rw [delete_vars, Slots.get?_remove] at hw
  split at hw
  · cases hw
  · exact Or.inl hw

theorem Kept.run {g : Graph σ} (hg : g.Kept Q) (rule : Rule σ) (stamps : List Stamp) :
    (g.run rule stamps).2.Kept Q :=
  run_invariant (P := fun h => h.Kept Q) (fun slot hh => hh.delete slot)
    (fun _ hh => ⟨hh.sound.congr rfl rfl, hh.rules, hh.caches⟩)
    ⟨hg.sound.congr rfl rfl, hg.rules, hg.caches⟩ rule stamps

/-- Keeping a result moves no variable and no name. -/
theorem Sound.set_cache {g : Graph σ} (hg : g.Sound) {slot : Slot} {v : Variable σ}
    (hv : g.vars.get? slot = some v) (cache : Option Cache) (log : List Notice) :
    ({ g with vars := g.vars.set slot { v with cache }, log } : Graph σ).Sound where
  slots := hg.slots.set slot _
  home {other w} hw := by
    rw [get?_set_cache hv] at hw
    split at hw
    · cases hw
      exact (hg.home hv : g.HasModule v.home)
    · exact hg.home hw
  named {m name other} hname := by
    obtain ⟨w, hw, hhome, hown⟩ := hg.named (g := g) hname
    rw [get?_set_cache hv]
    by_cases hother : other = slot
    · rw [if_pos hother]
      rw [hother, hv] at hw
      cases hw
      exact ⟨_, rfl, hhome, hown⟩
    · rw [if_neg hother]
      exact ⟨w, hw, hhome, hown⟩

/-- A result that the variable's rule made of the stamps may be kept. -/
theorem Kept.keep {g : Graph σ} (hg : g.Kept Q) {slot : Slot} {stamps : List Stamp}
    {result : Except Fault Value}
    (hresult : ∀ v, g.vars.get? slot = some v →
      ∃ world, result = v.rule.result world (stamps.map Stamp.result)) :
    (g.keep slot stamps result).Kept Q := by
  cases hv : g.vars.get? slot with
  | none => rwa [keep_dead hv]
  | some v =>
      obtain ⟨log, hkeep⟩ := keep_live hv stamps result
      rw [hkeep]
      refine ⟨hg.sound.set_cache hv _ log, fun {other w} hw => ?_, fun {other w cache} hw hcache => ?_⟩
      · rw [get?_set_cache hv] at hw
        split at hw
        · cases hw
          exact (hg.rules hv : v.rule.Satisfies Q)
        · exact hg.rules hw
      · rw [get?_set_cache hv] at hw
        split at hw
        · cases hw
          cases hcache
          exact hresult v hv
        · exact hg.caches hw hcache

/-- A conclusion keeps the invariant, provided the rule is that of the variable, if it is there. -/
theorem Kept.conclude {g : Graph σ} (hg : g.Kept Q) {slot : Slot} {rule : Rule σ}
    (stamps : List Stamp) (hrule : ∀ v, g.vars.get? slot = some v → v.rule = rule) :
    (g.conclude slot rule stamps).2.Kept Q := by
  cases hcached : g.cached? slot stamps with
  | some result => rwa [conclude_hit hcached]
  | none =>
      rw [conclude_miss hcached]
      refine (hg.run rule stamps).keep fun w hw => ⟨g.world, ?_⟩
      -- the run may have deleted the variable, but cannot have given it another rule
      obtain ⟨v, hv, hwv⟩ := shrinks_run g rule stamps slot w hw
      rw [Variable.rule_eq_of_bare_eq hwv, hrule v hv]
      exact run_fst g rule stamps

/-- Evaluation keeps the invariant. -/
theorem Kept.evaluateWithin {g : Graph σ} (hg : g.Kept Q) (depth : Nat) (path : List Slot)
    (slot : Slot) : (evaluateWithin depth path slot g).2.Kept Q := by
  refine (evaluateWithin_rel (R := fun g h => g.Kept Q → h.Kept Q ∧ g.Shrinks h)
    (fun g hg => ⟨hg, shrinks_refl g⟩) ?_ ?_ depth path slot g hg).1
  · intro g₁ g₂ g₃ h₁₂ h₂₃ hg₁
    obtain ⟨hg₂, hshrinks⟩ := h₁₂ hg₁
    obtain ⟨hg₃, hshrinks'⟩ := h₂₃ hg₂
    exact ⟨hg₃, hshrinks.trans hshrinks'⟩
  · intro g₀ g s v stamps hv hstep hg₀
    obtain ⟨hg, hshrinks⟩ := hstep hg₀
    refine ⟨hg.conclude stamps fun w hw => ?_, hshrinks.trans (shrinks_conclude g s v.rule stamps)⟩
    obtain ⟨u, hu, hwu⟩ := hshrinks s w hw
    rw [hv] at hu
    cases hu
    exact Variable.rule_eq_of_bare_eq hwu

/-- So does reading. -/
theorem Kept.readEach {g : Graph σ} (hg : g.Kept Q) (depth : Nat) (path : List Slot)
    (reads : List (ModuleId × String)) :
    (Graph.readEach (Graph.evaluateWithin depth path) reads g).2.Kept Q :=
  readEach_rel (R := fun g h => g.Kept Q → h.Kept Q) (fun _ hg => hg) (fun h₁₂ h₂₃ hg => h₂₃ (h₁₂ hg))
    (fun slot _ hh => hh.evaluateWithin depth path slot) reads g hg

/-! ### Edits -/

theorem delete_world (g : Graph σ) (slot : Slot) : (g.delete slot).world = g.world := by
  cases hv : g.vars.get? slot with
  | none => rw [delete_dead hv]
  | some v =>
      rw [delete_live hv, releaseName]
      cases v.name <;> rfl

/-- What edits may lead to: the world is as it was, and each variable is one of those of before, or has a
rule as it should be and keeps nothing. -/
structure Edited (B : Slot → Variable σ → Prop) (Q : Body σ → Prop) (world : World σ) (g : Graph σ) :
    Prop where
  sound : g.Sound
  world : g.world = world
  vars : ∀ slot w, g.vars.get? slot = some w → B slot w ∨ (w.rule.Satisfies Q ∧ w.cache = none)

/-- Edits evaluate nothing: what they change or add keeps nothing yet. -/
theorem closed_edited {B : Slot → Variable σ → Prop} {world : World σ}
    (hB : ∀ slot w, B slot w → w.rule.Satisfies Q) : Edit.Closed (Edited B Q world) Q where
  newModule hg := ⟨hg.sound.newModule, hg.world, hg.vars⟩
  newVariable {g m observer} hg hm := by
    refine ⟨hg.sound.newVariable hm observer, hg.world, fun slot w hw => ?_⟩
    simp only [newVariable, Slots.get?_insert hg.sound.slots] at hw
    split at hw
    · cases hw
      refine Or.inr ⟨?_, rfl⟩
      intro body hbody
      cases hbody
    · exact hg.vars slot w hw
  register {g h slot name inputs rule} hg hrule hregister := by
    cases hv : g.vars.get? slot with
    | none =>
        rw [register_dead hv] at hregister
        cases hregister
    | some v =>
        obtain ⟨h', hregister', hh⟩ := register_live hg.sound hv name inputs rule
        rw [hregister] at hregister'
        cases hregister'
        refine ⟨hh.sound hg.sound hv, hh.world.trans hg.world, fun other w hw => ?_⟩
        rw [hh.get? hv] at hw
        split at hw
        · cases hw
          exact Or.inr ⟨hrule, rfl⟩
        · exact hg.vars other w hw
  delete {g slot} hg := by
    refine ⟨hg.sound.delete slot, (delete_world g slot).trans hg.world, fun other w hw => ?_⟩
    rw [delete_vars, Slots.get?_remove] at hw
    split at hw
    · cases hw
    · exact hg.vars other w hw
  addNamed {g m name inputs rule} hg hm hrule := by
    refine ⟨hg.sound.addNamed hm name inputs rule, hg.world, fun slot w hw => ?_⟩
    rw [addNamed_vars, Slots.get?_insert hg.sound.slots] at hw
    split at hw
    · cases hw
      exact Or.inr ⟨hrule, rfl⟩
    · exact hg.vars slot w hw
  rules {g slot v} hg hv := by
    rcases hg.vars slot v hv with hold | hnew
    · exact hB slot v hold
    · exact hnew.1

theorem Kept.edited {g : Graph σ} (hg : g.Kept Q) :
    Edited (fun slot w => g.vars.get? slot = some w) Q g.world g :=
  ⟨hg.sound, rfl, fun _ _ hw => Or.inl hw⟩

theorem Kept.of_edited {g h : Graph σ} (hg : g.Kept Q)
    (hh : Edited (fun slot w => g.vars.get? slot = some w) Q g.world h) : h.Kept Q :=
  hg.of_vars hh.sound hh.vars

/-- Every edit keeps the invariant. -/
theorem closed_kept : Edit.Closed (fun g : Graph σ => g.Kept Q) Q where
  newModule hg := hg.of_edited ((closed_edited fun _ _ => hg.rules).newModule hg.edited)
  newVariable hg hm := hg.of_edited ((closed_edited fun _ _ => hg.rules).newVariable hg.edited hm)
  register hg hrule hregister :=
    hg.of_edited ((closed_edited fun _ _ => hg.rules).register hg.edited hrule hregister)
  delete hg := hg.of_edited ((closed_edited fun _ _ => hg.rules).delete hg.edited)
  addNamed hg hm hrule :=
    hg.of_edited ((closed_edited fun _ _ => hg.rules).addNamed hg.edited hm hrule)
  rules hg hv := hg.rules hv

/-- The invariant holds after every run of operations whose bodies satisfy `Q`. -/
theorem kept_applyAll (world : World σ) (maxPasses : Nat) (ops : List (Op σ))
    (hvalid : Op.ValidAll { world, maxPasses } ops) (hbodies : ∀ op ∈ ops, op.Satisfies Q) :
    (Op.applyAll { world, maxPasses } ops).Kept Q := by
  have hempty : ∀ slot, ({ world, maxPasses } : Graph σ).vars.get? slot = none := fun slot => by
    simp [Slots.get?]
  have hstart : ({ world, maxPasses } : Graph σ).Kept Q := by
    refine ⟨sound_start world maxPasses, fun {slot v} hv => ?_, fun {slot v cache} hv => ?_⟩
    · rw [hempty] at hv
      cases hv
    · rw [hempty] at hv
      cases hv
  exact Op.invariant closed_kept (fun depth path slot hg => hg.evaluateWithin depth path slot) ops
    hstart hvalid hbodies

end Invariant

end Graph

end CellGraph
