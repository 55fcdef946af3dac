import CellGraph.Proofs.Graph.Scratch

/-!
# Incremental evaluation

Where every body is a function of its inputs, evaluation changes nothing but what is kept, counted and
told (`Ready.evaluateWithin`), and a kept result may stand for a new run: it was made by the same rule of
stamps that are the same. So what evaluation returns is what evaluation from scratch returns, up to
equality of values (`evaluate_same`), whatever has been kept from earlier.
-/

namespace CellGraph

variable {σ : Type}

/-! ## Functions of their inputs -/

/-- A body that is a function of its inputs: it has the same result in every world, it neither changes
the world nor deletes anything, and it does not tell values apart that are the same. -/
structure Body.Functional (body : Body σ) : Prop where
  result : ∀ inputs world world', (body inputs world).result = (body inputs world').result
  world : ∀ inputs world, (body inputs world).world = world
  deleted : ∀ inputs world, (body inputs world).deleted = []
  respects : ∀ {as bs : List Value} (world : World σ), List.Forall₂ (fun a b => a.same b = true) as bs →
    sameResult (body as world).result (body bs world).result = true

theorem Body.functional_constant (value : Value) : Body.Functional (.constant value : Body σ) where
  result _ _ _ := rfl
  world _ _ := rfl
  deleted _ _ := rfl
  respects _ _ := sameResult_refl _

/-- The body that has the value of its first input. -/
def Body.first : Body σ :=
  fun inputs world => { result := .ok (inputs.headD .undefined), world }

theorem Body.functional_first : Body.Functional (.first : Body σ) where
  result _ _ _ := rfl
  world _ _ := rfl
  deleted _ _ := rfl
  respects _ h := by
    cases h with
    | nil => rfl
    | cons hab _ => exact hab

/-- Lists of results that are the same have the same first fault, or values that are the same. -/
theorem mapM_id_same {as bs : List (Except Fault Value)}
    (h : List.Forall₂ (fun a b => sameResult a b = true) as bs) :
    (∃ fault, as.mapM id = .error fault ∧ bs.mapM id = .error fault) ∨
    ∃ xs ys, as.mapM id = .ok xs ∧ bs.mapM id = .ok ys ∧
      List.Forall₂ (fun x y => x.same y = true) xs ys := by
  induction h with
  | nil => exact Or.inr ⟨[], [], rfl, rfl, .nil⟩
  | @cons a b as bs hab _ ih =>
      rw [List.mapM_cons, List.mapM_cons]
      cases a with
      | error fault =>
          cases b with
          | ok y => cases hab
          | error fault' =>
              have hfault : fault = fault' := by simpa [sameResult] using hab
              exact Or.inl ⟨fault, rfl, by rw [hfault]; rfl⟩
      | ok x =>
          cases b with
          | error fault => cases hab
          | ok y =>
              rcases ih with ⟨fault, has, hbs⟩ | ⟨xs, ys, has, hbs, hsame⟩
              · exact Or.inl ⟨fault, by rw [has]; rfl, by rw [hbs]; rfl⟩
              · exact Or.inr ⟨x :: xs, y :: ys, by rw [has]; rfl, by rw [hbs]; rfl, .cons hab hsame⟩

/-- Results without a fault among them are the values. -/
theorem eq_map_ok_of_mapM_id {results : List (Except Fault Value)} {inputs : List Value}
    (h : results.mapM id = .ok inputs) : results = inputs.map .ok := by
  induction results generalizing inputs with
  | nil =>
      cases h
      rfl
  | cons result results ih =>
      rw [List.mapM_cons] at h
      cases result with
      | error fault => cases h
      | ok value =>
          cases hrest : results.mapM id with
          | error fault =>
              rw [hrest] at h
              cases h
          | ok rest =>
              rw [hrest] at h
              cases h
              rw [ih hrest]
              rfl

/-- A rule whose body is a function makes the same of results that are the same, in every world. -/
theorem Rule.result_same {rule : Rule σ} (hrule : rule.Satisfies Body.Functional)
    {as bs : List (Except Fault Value)} (h : List.Forall₂ (fun a b => sameResult a b = true) as bs)
    (world world' : World σ) :
    sameResult (rule.result world as) (rule.result world' bs) = true := by
  cases rule with
  | undefined => rfl
  | importing name source =>
      cases h with
      | nil => exact sameResult_refl _
      | cons hab _ => exact hab
  | define body =>
      have hbody : Body.Functional body := hrule body rfl
      simp only [Rule.result]
      rcases mapM_id_same h with ⟨fault, has, hbs⟩ | ⟨xs, ys, has, hbs, hsame⟩
      · rw [has, hbs]
        exact sameResult_refl _
      · rw [has, hbs]
        simp only [Except.bind]
        rw [hbody.result ys world' world]
        exact hbody.respects world hsame

namespace Graph

/-- A run of a body that is a function changes nothing but the count. -/
theorem run_snd {rule : Rule σ} (hrule : rule.Satisfies Body.Functional) (g : Graph σ)
    (stamps : List Stamp) : (g.run rule stamps).2 = { g with runs := g.runs + 1 } := by
  cases rule with
  | undefined => rfl
  | importing name source => rfl
  | define body =>
      have hbody : Body.Functional body := hrule body rfl
      simp only [run, call]
      cases values stamps with
      | error fault => rfl
      | ok inputs =>
          simp only [hbody.deleted, hbody.world]
          rfl

/-- A graph all of whose bodies are functions of their inputs. -/
def Ready (g : Graph σ) : Prop :=
  g.Kept Body.Functional

/-! ## One conclusion -/

/-- What a conclusion from stamps comes to: the result is what the rule makes of them, the variable keeps
stamps that are the same, and nothing else has happened to any variable. -/
structure Concluded (g : Graph σ) (slot : Slot) (rule : Rule σ) (stamps : List Stamp)
    (out : Except Fault Value × Graph σ) : Prop where
  result : sameResult out.1 (rule.result g.world (stamps.map Stamp.result)) = true
  kept : ∃ v cache, out.2.vars.get? slot = some v ∧ v.cache = some cache ∧
    Stamp.sameList cache.stamps stamps = true
  others : ∀ other, other ≠ slot → out.2.vars.get? other = g.vars.get? other
  bare : out.2.bare = g.bare

theorem Ready.conclude {g : Graph σ} (hg : g.Ready) {slot : Slot} {v : Variable σ}
    (hv : g.vars.get? slot = some v) (stamps : List Stamp) :
    Concluded g slot v.rule stamps (g.conclude slot v.rule stamps) := by
  have hrule := hg.rules hv
  cases hcached : g.cached? slot stamps with
  | some result =>
      rw [conclude_hit hcached]
      obtain ⟨w, cache, hw, hcache, hsame, rfl⟩ := cached?_eq_some_iff.mp hcached
      refine ⟨?_, ⟨w, cache, hw, hcache, hsame⟩, fun _ _ => rfl, rfl⟩
      rw [hv] at hw
      cases hw
      -- the kept result was made by this rule, of stamps that are the same
      obtain ⟨world, hresult⟩ := hg.caches hv hcache
      rw [hresult]
      exact Rule.result_same hrule (Stamp.sameList_results hsame) world g.world
  | none =>
      rw [conclude_miss hcached, run_snd hrule, run_fst]
      have hlive : ({ g with runs := g.runs + 1 } : Graph σ).vars.get? slot = some v := hv
      obtain ⟨log, hkeep⟩ := keep_live hlive stamps
        (v.rule.result g.world (stamps.map Stamp.result))
      have hvars := get?_set_cache hv
        (some { stamps, result := v.rule.result g.world (stamps.map Stamp.result) })
      rw [hkeep]
      refine ⟨sameResult_refl _, ?_, ?_, ?_⟩
      · exact ⟨_, _, (hvars slot).trans (if_pos rfl), rfl, Stamp.sameList_refl stamps⟩
      · intro other hother
        exact (hvars other).trans (if_neg hother)
      · exact bare_set_cache hv _ (g.runs + 1) log

/-- Graphs that are equal without what they keep have the same variables up to what they keep. -/
theorem exists_of_bare_eq {g h : Graph σ} (hbare : h.bare = g.bare) {slot : Slot} {v : Variable σ}
    (hv : g.vars.get? slot = some v) : ∃ w, h.vars.get? slot = some w ∧ w.bare = v.bare := by
  have hvars : (h.vars.get? slot).map Variable.bare = (g.vars.get? slot).map Variable.bare := by
    rw [← get?_bare, ← get?_bare, hbare]
  rw [hv, Option.map_some] at hvars
  exact Option.map_eq_some_iff.mp hvars

/-! ## Whole evaluations -/

/-- Evaluation changes nothing but what is kept, counted and told. -/
theorem Ready.evaluateWithin {g : Graph σ} (hg : g.Ready) (depth : Nat) (path : List Slot)
    (slot : Slot) : (evaluateWithin depth path slot g).2.Ready ∧
      (evaluateWithin depth path slot g).2.bare = g.bare := by
  refine ⟨Kept.evaluateWithin hg depth path slot, ?_⟩
  refine (evaluateWithin_rel (R := fun g h => g.Ready → h.Ready ∧ h.bare = g.bare)
    (fun g hg => ⟨hg, rfl⟩) ?_ ?_ depth path slot g hg).2
  · intro g₁ g₂ g₃ h₁₂ h₂₃ hg₁
    obtain ⟨hg₂, hbare⟩ := h₁₂ hg₁
    obtain ⟨hg₃, hbare'⟩ := h₂₃ hg₂
    exact ⟨hg₃, hbare'.trans hbare⟩
  · intro g₀ g s v stamps hv hstep hg₀
    obtain ⟨hg, hbare⟩ := hstep hg₀
    obtain ⟨w, hw, hwv⟩ := exists_of_bare_eq hbare hv
    rw [← Variable.rule_eq_of_bare_eq hwv]
    refine ⟨Kept.conclude hg stamps fun u hu => ?_, (hg.conclude hw stamps).bare.trans hbare⟩
    rw [hw] at hu
    cases hu
    rfl

/-- An evaluator that may be used on any graph equal to `g` without what is kept: it changes nothing but
that, and it returns what is specified. -/
structure Faithful (g : Graph σ) (eval : Evaluator σ) (spec : Slot → Except Fault Value) : Prop where
  ready : ∀ {h : Graph σ} (slot : Slot), h.Ready → h.bare = g.bare →
    (eval slot h).2.Ready ∧ (eval slot h).2.bare = g.bare
  result : ∀ {h : Graph σ} (slot : Slot), h.Ready → h.bare = g.bare →
    sameResult (eval slot h).1 (spec slot) = true

section Reading

variable {g h : Graph σ} {eval : Evaluator σ} {spec : Slot → Except Fault Value}

/-- A builtin is no mutable. -/
theorem versionOf_builtin (g : Graph σ) (name : String) : g.versionOf (builtin name) = 0 := by
  unfold builtin
  cases Intrinsic.ofName? name <;> rfl

/-- One name is read as specified. -/
theorem Faithful.read (heval : Faithful g eval spec) (hh : h.Ready) (hbare : h.bare = g.bare)
    (m : ModuleId) (name : String) :
    (read eval m name h).1.same (g.stampOf (g.resolve spec (m, name))) = true ∧
      (read eval m name h).2.Ready ∧ (read eval m name h).2.bare = g.bare := by
  have hagree := agree_of_bare_eq hbare
  unfold Graph.read resolve
  rw [hagree.lookup]
  cases g.lookup m name with
  | none =>
      refine ⟨?_, hh, hbare⟩
      simp [Stamp.same, stampOf, sameResult_refl, versionOf_builtin]
  | some slot =>
      obtain ⟨hready, hbare'⟩ := heval.ready slot hh hbare
      refine ⟨?_, hready, hbare'⟩
      have hresult := heval.result slot hh hbare
      have hversion : (eval slot h).2.versionOf (eval slot h).1 = g.versionOf (spec slot) := by
        rw [← g.versionOf_eq_of_same hresult]
        unfold versionOf
        rw [(agree_of_bare_eq hbare').world]
      simp [Stamp.same, stampOf, hresult, hversion]

/-- Names are read as specified, one after the other. -/
theorem Faithful.readEach (heval : Faithful g eval spec) (hh : h.Ready) (hbare : h.bare = g.bare)
    (reads : List (ModuleId × String)) :
    Stamp.sameList (readEach eval reads h).1
        (reads.map fun read => g.stampOf (g.resolve spec read)) = true ∧
      (readEach eval reads h).2.Ready ∧ (readEach eval reads h).2.bare = g.bare := by
  induction reads generalizing h with
  | nil => exact ⟨rfl, hh, hbare⟩
  | cons first reads ih =>
      obtain ⟨m, name⟩ := first
      obtain ⟨hfirst, hready, hbare'⟩ := heval.read hh hbare m name
      obtain ⟨hrest, hdone⟩ := ih hready hbare'
      refine ⟨?_, hdone⟩
      simp only [Graph.readEach, List.map_cons, Stamp.sameList, Bool.and_eq_true]
      exact ⟨hfirst, hrest⟩

end Reading

/-- A variable on its own path, or one that is not there, is not evaluated. -/
theorem evaluateWithin_blocked {g h : Graph σ} (hgh : g.Agree h) {path : List Slot} {slot : Slot}
    (hblocked : slot ∈ path ∨ g.vars.get? slot = none) (depth : Nat) :
    evaluateWithin depth path slot h = (g.scratch path slot, h) := by
  by_cases hmem : slot ∈ path
  · rw [evaluateWithin_mem hmem, scratch_mem hmem, hgh.label]
  · have hdead := hblocked.resolve_left hmem
    rw [evaluateWithin_dead hmem (hgh.get?_eq_none hdead), scratch_dead hmem hdead]

/-- One step of evaluation: the stamps that are read are those that ought to be read, and the result is
concluded from them. -/
theorem Faithful.step {g h : Graph σ} {path : List Slot} {slot : Slot} {depth : Nat} {v : Variable σ}
    (hnext : Faithful g (evaluateWithin depth (slot :: path)) (g.scratch (slot :: path)))
    (hh : h.Ready) (hbare : h.bare = g.bare) (hmem : slot ∉ path) (hv : g.vars.get? slot = some v) :
    ∃ stamps mid, Graph.readEach (evaluateWithin depth (slot :: path)) v.reads h = (stamps, mid) ∧
      Stamp.sameList stamps (g.stampsAt path slot) = true ∧ mid.Ready ∧ mid.bare = g.bare ∧
      evaluateWithin (depth + 1) path slot h = mid.conclude slot v.rule stamps ∧
      Concluded mid slot v.rule stamps (mid.conclude slot v.rule stamps) := by
  obtain ⟨w, hw, hwv⟩ := exists_of_bare_eq hbare hv
  obtain ⟨hstamps, hready, hbare'⟩ := hnext.readEach hh hbare v.reads
  rw [← stampsAt_live hv path] at hstamps
  refine ⟨_, _, rfl, hstamps, hready, hbare', ?_, ?_⟩
  · rw [evaluateWithin_succ hmem hw, Variable.reads_eq_of_bare_eq hwv,
      Variable.rule_eq_of_bare_eq hwv]
  · obtain ⟨u, hu, huv⟩ := exists_of_bare_eq hbare' hv
    rw [← Variable.rule_eq_of_bare_eq huv]
    exact hready.conclude hu _

/-- A variable that is neither on the path nor missing is there. -/
theorem exists_of_not_blocked {g : Graph σ} {path : List Slot} {slot : Slot}
    (hfree : ¬ (slot ∈ path ∨ g.vars.get? slot = none)) :
    slot ∉ path ∧ ∃ v, g.vars.get? slot = some v := by
  rw [not_or] at hfree
  exact ⟨hfree.1, Option.ne_none_iff_exists'.mp hfree.2⟩

/-- Evaluation returns what evaluation from scratch returns, provided that the depth is enough for the
variables off the path. -/
theorem evaluateWithin_faithful {g : Graph σ} {path : List Slot} {depth : Nat}
    (hdepth : g.unvisited path ≤ depth) :
    Faithful g (evaluateWithin depth path) (g.scratch path) := by
  -- by induction on the depth, of which each variable on the path uses up one
  induction depth generalizing path with
  | zero =>
      refine ⟨fun {h} slot hh hbare => ?_, fun {h} slot hh hbare => ?_⟩
      · rw [evaluateWithin_zero]
        exact ⟨hh, hbare⟩
      · have hblocked : slot ∈ path ∨ g.vars.get? slot = none := by
          by_contra hfree
          obtain ⟨hmem, v, hv⟩ := exists_of_not_blocked hfree
          have hlt := unvisited_cons_lt hmem hv
          omega
        rw [evaluateWithin_blocked (agree_of_bare_eq hbare).symm hblocked]
        exact sameResult_refl _
  | succ depth ih =>
      refine ⟨fun {h} slot hh hbare => ?_, fun {h} slot hh hbare => ?_⟩
      · obtain ⟨hready, hbare'⟩ := hh.evaluateWithin (depth + 1) path slot
        exact ⟨hready, hbare'.trans hbare⟩
      · by_cases hblocked : slot ∈ path ∨ g.vars.get? slot = none
        · rw [evaluateWithin_blocked (agree_of_bare_eq hbare).symm hblocked]
          exact sameResult_refl _
        · obtain ⟨hmem, v, hv⟩ := exists_of_not_blocked hblocked
          have hlt := unvisited_cons_lt hmem hv
          have hnext : Faithful g (evaluateWithin depth (slot :: path)) (g.scratch (slot :: path)) :=
            ih (by omega)
          obtain ⟨stamps, mid, -, hstamps, hready, hbare', heval, hconcluded⟩ :=
            hnext.step hh hbare hmem hv
          rw [heval, scratch_eq_result hmem hv]
          refine sameResult_trans hconcluded.result ?_
          obtain ⟨u, hu, huv⟩ := exists_of_bare_eq hbare' hv
          rw [← Variable.rule_eq_of_bare_eq huv]
          exact Rule.result_same (hready.rules hu) (Stamp.sameList_results hstamps) _ _

/-- There are no more variables off the empty path than the graph has, whatever it keeps. -/
theorem unvisited_nil_le {g h : Graph σ} (hh : h.Ready) (hbare : h.bare = g.bare) :
    g.unvisited [] ≤ h.vars.size := by
  rw [← unvisited_bare, ← hbare, unvisited_bare]
  exact hh.sound.unvisited_nil_le

/-- The value that evaluation returns is the one computed from scratch, whatever has been kept. -/
theorem evaluate_same {g : Graph σ} (hg : g.Ready) (slot : Slot) :
    sameResult (g.evaluate slot).1 (g.scratch [] slot) = true :=
  (evaluateWithin_faithful (unvisited_nil_le hg rfl)).result slot hg rfl

end Graph

end CellGraph
