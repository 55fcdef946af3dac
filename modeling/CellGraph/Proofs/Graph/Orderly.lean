import CellGraph.Proofs.Graph.Settling

/-!
# Orderly graphs

A graph is orderly if it has no cycle and its bodies delete nothing; they may do anything else, and need
not be functions of their inputs. Evaluation then leaves the variables and names as they are, so that one
evaluation after the other finds the same dependencies (`Alike`), and neither the path nor the depth
matters: to evaluate a variable is to evaluate what it reads, in order, and to conclude
(`Orderly.evaluate_eq`). What is to be shown of an evaluation is shown along the dependencies
(`Orderly.induction`).
-/

namespace CellGraph

variable {σ : Type}

/-- A body that deletes nothing. -/
def Body.Lasting (body : Body σ) : Prop :=
  ∀ inputs world, (body inputs world).deleted = []

/-- The world after a rule was applied to the results that were read. -/
def Rule.world (world : World σ) (rule : Rule σ) (results : List (Except Fault Value)) : World σ :=
  match rule with
  | .define body =>
    match results.mapM id with
    | .ok inputs => (body inputs world).world
    | .error _ => world
  | _ => world

namespace Graph

/-- A run of a body that deletes nothing changes nothing but the count and the world. -/
theorem run_of_lasting {rule : Rule σ} (hrule : rule.Satisfies Body.Lasting) (g : Graph σ)
    (stamps : List Stamp) :
    g.run rule stamps = (rule.result g.world (stamps.map Stamp.result),
      { g with runs := g.runs + 1, world := rule.world g.world (stamps.map Stamp.result) }) := by
  refine Prod.ext (run_fst g rule stamps) ?_
  cases rule with
  | undefined => rfl
  | importing name source => rfl
  | define body =>
      have hbody : Body.Lasting body := hrule body rfl
      simp only [run, call, Rule.world, ← values_eq]
      cases values stamps with
      | error fault => rfl
      | ok inputs =>
          simp only [hbody inputs]
          rfl

/-! ## Graphs that are alike -/

/-- The second graph has the variables and names of the first: only what is kept, counted and told may
differ, and the world. -/
def Alike (g h : Graph σ) : Prop :=
  ({ h with world := g.world } : Graph σ).bare = g.bare

theorem alike_refl (g : Graph σ) : g.Alike g := rfl

/-- Worlds can be exchanged on both sides. -/
theorem Alike.with_world {g h : Graph σ} (hgh : g.Alike h) (world : World σ) :
    ({ h with world } : Graph σ).bare = ({ g with world } : Graph σ).bare :=
  congrArg (fun k : Graph σ => { k with world }) hgh

theorem Alike.trans {g₁ g₂ g₃ : Graph σ} (h₁₂ : g₁.Alike g₂) (h₂₃ : g₂.Alike g₃) : g₁.Alike g₃ :=
  (h₂₃.with_world g₁.world).trans h₁₂

section Alike

variable {g h : Graph σ} (hgh : g.Alike h)
include hgh

theorem Alike.lookup (m : ModuleId) (name : String) : h.lookup m name = g.lookup m name :=
  (agree_of_bare_eq hgh).lookup m name

theorem Alike.exists_of_get? {slot : Slot} {v : Variable σ} (hv : g.vars.get? slot = some v) :
    ∃ w, h.vars.get? slot = some w ∧ w.bare = v.bare :=
  exists_of_bare_eq hgh hv

theorem Alike.shrinks : g.Shrinks h := by
  intro slot w hw
  obtain ⟨v, hv, hvw⟩ := exists_of_bare_eq hgh.symm hw
  exact ⟨v, hv, hvw.symm⟩

theorem Alike.get?_eq_none {slot : Slot} (hdead : g.vars.get? slot = none) :
    h.vars.get? slot = none :=
  (agree_of_bare_eq hgh).symm.get?_eq_none hdead

theorem Alike.label (slot : Slot) : h.label slot = g.label slot :=
  (agree_of_bare_eq hgh).label slot

theorem Alike.roots : h.roots = g.roots := by
  have hroots : ({ h with world := g.world } : Graph σ).bare.roots = g.bare.roots := by rw [hgh]
  rwa [roots_bare, roots_bare] at hroots

theorem Alike.unvisited (path : List Slot) : h.unvisited path = g.unvisited path := by
  have hcount : ({ h with world := g.world } : Graph σ).bare.unvisited path = g.bare.unvisited path := by
    rw [hgh]
  rwa [unvisited_bare, unvisited_bare] at hcount

theorem Alike.maxPasses : h.maxPasses = g.maxPasses :=
  maxPasses_eq_of_bare_eq (h := { h with world := g.world }) hgh

theorem Alike.dependsOn : h.DependsOn = g.DependsOn := by
  have hagree := agree_of_bare_eq hgh
  funext slot next
  exact propext ⟨fun hnext => hagree.dependsOn hnext, fun hnext => hagree.symm.dependsOn hnext⟩

end Alike

/-- A variable that waits already, or that is not there, gives the same fault in graphs that are alike. -/
theorem Alike.evaluateWithin_blocked {g h : Graph σ} (hgh : g.Alike h) {path : List Slot} {slot : Slot}
    (hblocked : slot ∈ path ∨ g.vars.get? slot = none) (depth : Nat) :
    evaluateWithin depth path slot h = ((evaluateWithin depth path slot g).1, h) := by
  by_cases hmem : slot ∈ path
  · rw [evaluateWithin_mem hmem, evaluateWithin_mem hmem, hgh.label]
  · have hdead := hblocked.resolve_left hmem
    rw [evaluateWithin_dead hmem (hgh.get?_eq_none hdead), evaluateWithin_dead hmem hdead]

/-! ## Conclusions -/

/-- The rule of a variable has been run on stamps: the variable keeps the result, the world is what the
rule made of it, and nothing else has happened to any variable or name. -/
structure Ran (g : Graph σ) (slot : Slot) (v : Variable σ) (stamps : List Stamp)
    (out : Except Fault Value × Graph σ) : Prop where
  result : out.1 = v.rule.result g.world (stamps.map Stamp.result)
  world : out.2.world = v.rule.world g.world (stamps.map Stamp.result)
  self : out.2.vars.get? slot = some { v with cache := some { stamps, result := out.1 } }
  others : ∀ {other : Slot}, other ≠ slot → out.2.vars.get? other = g.vars.get? other
  alike : g.Alike out.2

/-- A conclusion hands out what is kept for the same stamps, or else runs the rule. -/
theorem conclude_cases {g : Graph σ} {slot : Slot} {v : Variable σ} (hv : g.vars.get? slot = some v)
    (hrule : v.rule.Satisfies Body.Lasting) (stamps : List Stamp) :
    (∃ cache, v.cache = some cache ∧ Stamp.sameList cache.stamps stamps = true ∧
      g.conclude slot v.rule stamps = (cache.result, g)) ∨
    ((∀ cache, v.cache = some cache → Stamp.sameList cache.stamps stamps = false) ∧
      g.Ran slot v stamps (g.conclude slot v.rule stamps)) := by
  cases hcached : g.cached? slot stamps with
  | some result =>
      obtain ⟨w, cache, hw, hcache, hsame, rfl⟩ := cached?_eq_some_iff.mp hcached
      rw [hv] at hw
      cases hw
      exact Or.inl ⟨cache, hcache, hsame, conclude_hit hcached v.rule⟩
  | none =>
      refine Or.inr ⟨fun cache hcache => ?_, ?_⟩
      · by_contra hsame
        rw [Bool.not_eq_false] at hsame
        have hhit := cached?_eq_some_iff.mpr ⟨v, cache, hv, hcache, hsame, rfl⟩
        rw [hcached] at hhit
        cases hhit
      · rw [conclude_miss hcached, run_of_lasting hrule]
        obtain ⟨log, hkeep⟩ := keep_live (g := { g with
            runs := g.runs + 1
            world := v.rule.world g.world (stamps.map Stamp.result) }) hv stamps
          (v.rule.result g.world (stamps.map Stamp.result))
        have hget := get?_set_cache hv
          (some { stamps, result := v.rule.result g.world (stamps.map Stamp.result) })
        refine ⟨rfl, ?_, ?_, fun {other} hother => ?_, ?_⟩ <;> rw [hkeep]
        · exact (hget slot).trans (if_pos rfl)
        · exact (hget other).trans (if_neg hother)
        · exact bare_set_cache hv _ (g.runs + 1) log

/-- A conclusion of a variable with its own rule leaves a graph that is alike. -/
theorem alike_conclude {g : Graph σ} {slot : Slot} {v : Variable σ} (hv : g.vars.get? slot = some v)
    (hrule : v.rule.Satisfies Body.Lasting) (stamps : List Stamp) :
    g.Alike (g.conclude slot v.rule stamps).2 := by
  rcases conclude_cases hv hrule stamps with ⟨cache, -, -, hhit⟩ | ⟨-, hran⟩
  · rw [hhit]
    exact alike_refl g
  · exact hran.alike

/-- It changes no other variable. -/
theorem get?_conclude_of_ne {g : Graph σ} {slot other : Slot} {v : Variable σ}
    (hv : g.vars.get? slot = some v) (hrule : v.rule.Satisfies Body.Lasting) (stamps : List Stamp)
    (hother : other ≠ slot) :
    (g.conclude slot v.rule stamps).2.vars.get? other = g.vars.get? other := by
  rcases conclude_cases hv hrule stamps with ⟨cache, -, -, hhit⟩ | ⟨-, hran⟩
  · rw [hhit]
  · exact hran.others hother

/-! ## Orderly graphs -/

/-- A graph without cycles whose bodies delete nothing. -/
structure Orderly (g : Graph σ) : Prop where
  kept : g.Kept Body.Lasting
  acyclic : ∀ slot, ¬ Relation.TransGen g.DependsOn slot slot

theorem Orderly.of_alike {g h : Graph σ} (hg : g.Orderly) (hgh : g.Alike h)
    (hkept : h.Kept Body.Lasting) : h.Orderly where
  kept := hkept
  acyclic := hgh.dependsOn ▸ hg.acyclic

theorem Orderly.acyclicFrom {g : Graph σ} (hg : g.Orderly) (slot : Slot) : g.AcyclicFrom slot :=
  fun s _ => hg.acyclic s

/-- Evaluation leaves a graph alike whose bodies delete nothing. -/
theorem Kept.alike_evaluateWithin {g : Graph σ} (hg : g.Kept Body.Lasting) (depth : Nat)
    (path : List Slot) (slot : Slot) : g.Alike (Graph.evaluateWithin depth path slot g).2 := by
  refine (evaluateWithin_rel (R := fun g h => g.Kept Body.Lasting → h.Kept Body.Lasting ∧ g.Alike h)
    (fun g hg => ⟨hg, alike_refl g⟩) ?_ ?_ depth path slot g hg).2
  · intro g₁ g₂ g₃ h₁₂ h₂₃ hg₁
    obtain ⟨hg₂, halike⟩ := h₁₂ hg₁
    obtain ⟨hg₃, halike'⟩ := h₂₃ hg₂
    exact ⟨hg₃, halike.trans halike'⟩
  · intro g₀ g s v stamps hv hstep hg₀
    obtain ⟨hg, halike⟩ := hstep hg₀
    obtain ⟨w, hw, hwv⟩ := halike.exists_of_get? hv
    rw [← Variable.rule_eq_of_bare_eq hwv]
    refine ⟨hg.conclude stamps fun u hu => ?_, halike.trans (alike_conclude hw (hg.rules hw) stamps)⟩
    rw [hw] at hu
    cases hu
    rfl

/-- Evaluation leaves an orderly graph orderly, and alike. -/
theorem Orderly.evaluateWithin {g : Graph σ} (hg : g.Orderly) (depth : Nat) (path : List Slot)
    (slot : Slot) : (evaluateWithin depth path slot g).2.Orderly ∧
      g.Alike (evaluateWithin depth path slot g).2 := by
  have halike := hg.kept.alike_evaluateWithin depth path slot
  exact ⟨hg.of_alike halike (hg.kept.evaluateWithin depth path slot), halike⟩

theorem Orderly.evaluate {g : Graph σ} (hg : g.Orderly) (slot : Slot) :
    (g.evaluate slot).2.Orderly ∧ g.Alike (g.evaluate slot).2 :=
  hg.evaluateWithin g.vars.size [] slot

/-- What holds of a variable whenever it holds of all that the variable depends on, holds of every
variable. -/
theorem Orderly.induction {g : Graph σ} (hg : g.Orderly) {P : Slot → Prop}
    (hstep : ∀ slot, (∀ next, g.DependsOn slot next → P next) → P slot) (slot : Slot) : P slot := by
  -- down a path all of which leads here: it meets no variable twice, so it comes to an end
  have hpath : ∀ n (path : List Slot) (slot : Slot), g.unvisited path = n →
      (∀ s ∈ path, Relation.TransGen g.DependsOn s slot) → P slot := by
    intro n
    induction n using Nat.strongRecOn with
    | ind n ih =>
        intro path slot hn htrail
        refine hstep slot fun next hnext => ?_
        have hmem : slot ∉ path := fun hmem => hg.acyclic slot (htrail slot hmem)
        obtain ⟨v, read, hv, -⟩ := id hnext
        refine ih _ (hn ▸ unvisited_cons_lt hmem hv) (slot :: path) next rfl ?_
        rw [List.forall_mem_cons]
        exact ⟨.single hnext, fun s hs => (htrail s hs).tail hnext⟩
  exact hpath _ [] slot rfl (by simp)

/-- Evaluators that agree on what is read, on every graph that reading may come to, read the same. -/
theorem readEach_congr {P : Graph σ → Prop} {eval eval' : Evaluator σ}
    {reads : List (ModuleId × String)}
    (heval : ∀ read ∈ reads, ∀ h, P h → ∀ next, h.lookup read.1 read.2 = some next →
      eval next h = eval' next h ∧ P (eval next h).2) {g : Graph σ} (hg : P g) :
    readEach eval reads g = readEach eval' reads g ∧ P (readEach eval reads g).2 := by
  induction reads generalizing g with
  | nil => exact ⟨rfl, hg⟩
  | cons first reads ih =>
      rw [List.forall_mem_cons] at heval
      have hread : read eval first.1 first.2 g = read eval' first.1 first.2 g ∧
          P (read eval first.1 first.2 g).2 := by
        unfold read
        cases hlookup : g.lookup first.1 first.2 with
        | none => exact ⟨rfl, hg⟩
        | some next =>
            obtain ⟨hsame, hP⟩ := heval.1 g hg next hlookup
            simp only
            rw [← hsame]
            exact ⟨rfl, hP⟩
      obtain ⟨hrest, hP⟩ := ih heval.2 hread.2
      simp only [readEach]
      rw [← hread.1, ← hrest]
      exact ⟨rfl, hP⟩

/-- Neither the path nor the depth matters, provided that no variable of the path can be reached and the
depth is enough for the variables off it. -/
theorem Orderly.evaluateWithin_congr {g : Graph σ} (hg : g.Orderly) {depth depth' : Nat}
    {path path' : List Slot} {slot : Slot} (hdepth : g.unvisited path ≤ depth)
    (hdepth' : g.unvisited path' ≤ depth')
    (havoid : ∀ s, Relation.ReflTransGen g.DependsOn slot s → s ∉ path)
    (havoid' : ∀ s, Relation.ReflTransGen g.DependsOn slot s → s ∉ path') :
    Graph.evaluateWithin depth path slot g = Graph.evaluateWithin depth' path' slot g := by
  -- by induction on the first depth; what is read leaves a graph that is alike, hence as far from its end
  induction depth generalizing g depth' path path' slot with
  | zero =>
      have hmem := havoid slot .refl
      cases hv : g.vars.get? slot with
      | none => rw [evaluateWithin_dead hmem hv, evaluateWithin_dead (havoid' slot .refl) hv]
      | some v =>
          have hlt := unvisited_cons_lt hmem hv
          omega
  | succ depth ih =>
      have hmem := havoid slot .refl
      have hmem' := havoid' slot .refl
      cases hv : g.vars.get? slot with
      | none => rw [evaluateWithin_dead hmem hv, evaluateWithin_dead hmem' hv]
      | some v =>
          have hlt := unvisited_cons_lt hmem hv
          have hlt' := unvisited_cons_lt hmem' hv
          obtain ⟨rest, rfl⟩ : ∃ rest, depth' = rest + 1 := ⟨depth' - 1, by omega⟩
          rw [evaluateWithin_succ hmem hv, evaluateWithin_succ hmem' hv]
          have hreads : readEach (Graph.evaluateWithin depth (slot :: path)) v.reads g =
              readEach (Graph.evaluateWithin rest (slot :: path')) v.reads g := by
            refine (readEach_congr (P := fun h => h.Orderly ∧ g.Alike h) ?_ ⟨hg, alike_refl g⟩).1
            rintro read hread h ⟨hh, halike⟩ next hlookup
            rw [halike.lookup] at hlookup
            have hnext : g.DependsOn slot next := ⟨v, read, hv, hread, hlookup⟩
            obtain ⟨hdone, halike'⟩ := hh.evaluateWithin depth (slot :: path) next
            refine ⟨ih hh ?_ ?_ ?_ ?_, hdone, halike.trans halike'⟩
            · rw [halike.unvisited]
              omega
            · rw [halike.unvisited]
              omega
            · rw [halike.dependsOn]
              exact fun s hs => (hg.acyclicFrom slot).avoids_cons havoid hnext hs
            · rw [halike.dependsOn]
              exact fun s hs => (hg.acyclicFrom slot).avoids_cons havoid' hnext hs
          rw [hreads]

/-! ## Evaluation without paths -/

/-- The stamp of a name of a module, evaluated on no path. -/
def reading (g : Graph σ) (name : ModuleId × String) : Stamp × Graph σ :=
  read (fun next h => h.evaluate next) name.1 name.2 g

/-- The stamps of names, evaluated one after the other, each on no path. -/
def readings (g : Graph σ) (reads : List (ModuleId × String)) : List Stamp × Graph σ :=
  readEach (fun next h => h.evaluate next) reads g

@[simp]
theorem readings_nil (g : Graph σ) : g.readings [] = ([], g) := rfl

theorem readings_cons (g : Graph σ) (first : ModuleId × String) (reads : List (ModuleId × String)) :
    g.readings (first :: reads) =
      ((g.reading first).1 :: ((g.reading first).2.readings reads).1,
        ((g.reading first).2.readings reads).2) := rfl

theorem reading_of_lookup {g : Graph σ} {name : ModuleId × String} {next : Slot}
    (hlookup : g.lookup name.1 name.2 = some next) :
    g.reading name = ((g.evaluate next).2.stampOf (g.evaluate next).1, (g.evaluate next).2) := by
  simp only [reading, read, hlookup]
  rfl

theorem readings_singleton {g : Graph σ} {name : ModuleId × String} {next : Slot}
    (hlookup : g.lookup name.1 name.2 = some next) :
    g.readings [name] = ([(g.evaluate next).2.stampOf (g.evaluate next).1], (g.evaluate next).2) := by
  rw [readings_cons, reading_of_lookup hlookup]
  rfl

theorem reading_of_lookup_none {g : Graph σ} {name : ModuleId × String}
    (hlookup : g.lookup name.1 name.2 = none) :
    g.reading name = (g.stampOf (builtin name.2), g) := by
  simp [reading, read, hlookup, stampOf, versionOf_builtin]

/-- To evaluate a variable is to evaluate what it reads, one after the other, and to conclude. -/
theorem Orderly.evaluate_eq {g : Graph σ} (hg : g.Orderly) {slot : Slot} {v : Variable σ}
    (hv : g.vars.get? slot = some v) :
    g.evaluate slot = (g.readings v.reads).2.conclude slot v.rule (g.readings v.reads).1 := by
  have hnil : ∀ {h : Graph σ}, h.Orderly → h.unvisited [] ≤ h.vars.size :=
    fun hh => hh.kept.sound.unvisited_nil_le
  have hdeep : g.evaluate slot = Graph.evaluateWithin (g.vars.size + 1) [] slot g := by
    refine hg.evaluateWithin_congr (hnil hg) (Nat.le_succ_of_le (hnil hg)) ?_ ?_ <;> simp
  rw [hdeep, evaluateWithin_succ (by simp) hv]
  have hreads : readEach (Graph.evaluateWithin g.vars.size [slot]) v.reads g = g.readings v.reads := by
    refine (readEach_congr (P := fun h => h.Orderly ∧ g.Alike h) ?_ ⟨hg, alike_refl g⟩).1
    rintro read hread h ⟨hh, halike⟩ next hlookup
    rw [halike.lookup] at hlookup
    have hnext : h.DependsOn slot next := by
      rw [halike.dependsOn]
      exact ⟨v, read, hv, hread, hlookup⟩
    obtain ⟨hdone, halike'⟩ := hh.evaluateWithin g.vars.size [slot] next
    refine ⟨hh.evaluateWithin_congr ?_ (hnil hh) ?_ (by simp), hdone, halike.trans halike'⟩
    · have hlt := unvisited_cons_lt (List.not_mem_nil (a := slot)) hv
      have hle := hnil hg
      rw [halike.unvisited]
      omega
    · exact fun s hs => (hh.acyclicFrom slot).avoids_cons (by simp) hnext hs
  rw [hreads]

/-- A variable that is not there has no value. -/
theorem evaluate_dead {g : Graph σ} {slot : Slot} (hdead : g.vars.get? slot = none) :
    g.evaluate slot = (.error .deleted, g) :=
  evaluateWithin_dead (by simp) hdead g.vars.size

theorem Orderly.readings {g : Graph σ} (hg : g.Orderly) (reads : List (ModuleId × String)) :
    (g.readings reads).2.Orderly ∧ g.Alike (g.readings reads).2 := by
  refine readEach_rel (R := fun g h => g.Orderly → h.Orderly ∧ g.Alike h)
    (fun g hg => ⟨hg, alike_refl g⟩) ?_ (fun slot h hh => hh.evaluate slot) reads g hg
  intro g₁ g₂ g₃ h₁₂ h₂₃ hg₁
  obtain ⟨hg₂, halike⟩ := h₁₂ hg₁
  obtain ⟨hg₃, halike'⟩ := h₂₃ hg₂
  exact ⟨hg₃, halike.trans halike'⟩

/-- Once what it reads has been evaluated, a variable hands out what it keeps for the same stamps, or else
its rule is run. The variable may be taken from a graph that is alike. -/
theorem Orderly.evaluate_cases {g h : Graph σ} (hh : h.Orderly) (halike : g.Alike h) {slot : Slot}
    {v : Variable σ} (hv : g.vars.get? slot = some v) :
    ∃ w, (h.readings v.reads).2.vars.get? slot = some w ∧ w.bare = v.bare ∧
      ((∃ cache, w.cache = some cache ∧ Stamp.sameList cache.stamps (h.readings v.reads).1 = true ∧
        h.evaluate slot = (cache.result, (h.readings v.reads).2)) ∨
      ((∀ cache, w.cache = some cache →
          Stamp.sameList cache.stamps (h.readings v.reads).1 = false) ∧
        (h.readings v.reads).2.Ran slot w (h.readings v.reads).1 (h.evaluate slot))) := by
  obtain ⟨hmid, halike'⟩ := hh.readings v.reads
  obtain ⟨u, hu, huv⟩ := halike.exists_of_get? hv
  obtain ⟨w, hw, hwv⟩ := (halike.trans halike').exists_of_get? hv
  refine ⟨w, hw, hwv, ?_⟩
  rw [hh.evaluate_eq hu, Variable.reads_eq_of_bare_eq huv,
    Variable.rule_eq_of_bare_eq (huv.trans hwv.symm)]
  exact conclude_cases hw (hmid.kept.rules hw) (h.readings v.reads).1

/-- An import has the result of what it imports. -/
theorem Orderly.evaluate_importing {g : Graph σ} (hg : g.Orderly) {slot next : Slot} {v : Variable σ}
    {name : String} {source : ModuleId} (hv : g.vars.get? slot = some v)
    (hrule : v.rule = .importing name source) (hlookup : g.lookup source name = some next) :
    sameResult (g.evaluate slot).1 (g.evaluate next).1 = true := by
  have hreads : v.reads = [(source, name)] := by simp [Variable.reads, hrule]
  have hmid := (hg.readings v.reads).1
  obtain ⟨w, hw, hwv, hcases⟩ := hg.evaluate_cases (alike_refl g) hv
  have hrule' : w.rule = .importing name source := (Variable.rule_eq_of_bare_eq hwv).trans hrule
  rw [hreads, readings_singleton hlookup] at hcases hw hmid
  rcases hcases with ⟨cache, hcache, hsame, heval⟩ | ⟨-, hran⟩
  · obtain ⟨world, hresult⟩ := hmid.kept.caches hw hcache
    rw [heval, hresult, hrule']
    obtain ⟨stamp, stamps, hstamp, -, hstamps⟩ :=
      List.forall₂_cons_right_iff.mp (Stamp.sameList_results hsame)
    simp only [hstamps, Rule.result, List.head?_cons, Option.getD_some]
    exact hstamp
  · rw [hran.result, hrule']
    exact sameResult_refl _

/-! ## Evaluation of several variables -/

theorem evaluateAll_concat (g : Graph σ) (slots : List Slot) (slot : Slot) :
    g.evaluateAll (slots ++ [slot]) = ((g.evaluateAll slots).evaluate slot).2 :=
  List.foldl_append

theorem Orderly.evaluateAll {g : Graph σ} (hg : g.Orderly) (slots : List Slot) :
    (g.evaluateAll slots).Orderly ∧ g.Alike (g.evaluateAll slots) := by
  refine evaluateAll_invariant (P := fun h => h.Orderly ∧ g.Alike h) ?_ slots ⟨hg, alike_refl g⟩
  rintro h depth path slot ⟨hh, halike⟩
  obtain ⟨hdone, halike'⟩ := hh.evaluateWithin depth path slot
  exact ⟨hdone, halike.trans halike'⟩

end Graph

end CellGraph
