import CellGraph.Proofs.Containment
import CellGraph.Proofs.Graph.Firings
import CellGraph.Proofs.Graph.UpToDate
import CellGraph.Script

/-!
# The runs that made what is kept

What a variable keeps was made by the last run of its rule, in the world of that run (`Recorded`). The
history is that of a run of acts and of all that they evaluate (`Recorded.applyAll`). Bodies may do whatever can
be done with mutables and variables: make and set mutables, keep them in the memory of the host, delete
variables (`Body.Lawful`).
-/

namespace CellGraph

variable {σ : Type}

/-! ## Lawful bodies -/

/-- All mutables that are in the heap, or in the memory of the host, have been made. -/
structure World.Proper (held : σ → Nat) (world : World σ) : Prop where
  heap : world.heap.Grounded
  host : held world.host ≤ world.heap.cells.size

/-- What may come of running a body on a heap: mutables are made and set and nothing else happens to them, and
there is no mutable in the result or in the memory of the host that is not there. -/
structure Outcome.Lawful (held : σ → Nat) (heap : Heap) (outcome : Outcome σ) : Prop where
  heap : heap.Evolves outcome.world.heap
  host : held outcome.world.host ≤ outcome.world.heap.cells.size
  result : BelowResult outcome.world.heap.cells.size outcome.result

/-- A body whose runs are lawful. It has hold of the mutables among its inputs, of what these contain, of those
below place `made`, which are there when the body is made, and of those that the host remembers, which are below
place `held`. -/
def Body.Lawful (held : σ → Nat) (made : Nat) (body : Body σ) : Prop :=
  ∀ inputs (world : World σ), made ≤ world.heap.cells.size → world.Proper held →
    (∀ x ∈ inputs, x.Below world.heap.cells.size) → (body inputs world).Lawful held world.heap

theorem Body.Lawful.mono {held : σ → Nat} {m n : Nat} (hmn : m ≤ n) {body : Body σ}
    (h : body.Lawful held m) : body.Lawful held n :=
  fun inputs world hn => h inputs world (Nat.le_trans hmn hn)

/-- A lawful rule leads to a proper world, a later state of the one before, and returns no mutable that is not
there. -/
theorem Rule.proper_world {held : σ → Nat} {made : Nat} {rule : Rule σ}
    (hrule : rule.Satisfies (Body.Lawful held made)) {world : World σ}
    (hmade : made ≤ world.heap.cells.size) (hworld : world.Proper held)
    {results : List (Except Fault Value)}
    (hresults : ∀ result ∈ results, BelowResult world.heap.cells.size result) :
    world.heap.Grows (rule.world world results).heap ∧ (rule.world world results).Proper held ∧
      BelowResult (rule.world world results).heap.cells.size (rule.result world results) := by
  cases rule with
  | undefined =>
      refine ⟨world.heap.grows_refl, hworld, ?_⟩
      rintro value ⟨⟩
      trivial
  | importing name source =>
      refine ⟨world.heap.grows_refl, hworld, ?_⟩
      cases results with
      | nil => exact belowResult_error _ _
      | cons result results => exact hresults result List.mem_cons_self
  | define body =>
      simp only [Rule.world, Rule.result]
      cases hinputs : results.mapM id with
      | error fault => exact ⟨world.heap.grows_refl, hworld, belowResult_error _ fault⟩
      | ok inputs =>
          have hbelow : ∀ x ∈ inputs, x.Below world.heap.cells.size := by
            intro x hx
            rw [eq_map_ok_of_mapM_id hinputs] at hresults
            exact hresults (.ok x) (List.mem_map_of_mem hx) x rfl
          have hlawful := hrule body rfl inputs world hmade hworld hbelow
          exact ⟨hlawful.heap.grows, ⟨hlawful.heap.grounded hworld.heap, hlawful.host⟩, hlawful.result⟩

theorem belowResult_data (n : Nat) (json : Json) : BelowResult n (.ok (.data json)) := by
  rintro _ ⟨⟩
  trivial

theorem belowResult_undefined (n : Nat) : BelowResult n (.ok .undefined) := by
  rintro _ ⟨⟩
  trivial

/-- A body that always returns the same is lawful if that is there when it is made. -/
theorem Body.lawful_constant (held : σ → Nat) {made : Nat} {value : Value} (hvalue : value.Below made) :
    (Body.constant value : Body σ).Lawful held made := by
  intro inputs world hmade hworld _
  refine ⟨.refl _, hworld.host, ?_⟩
  rintro _ ⟨⟩
  exact hvalue.mono hmade

namespace Script

theorem Literal.evolves_make (literal : Literal) (heap : Heap) :
    heap.Evolves (literal.make heap).2 ∧ (literal.make heap).1.Below (literal.make heap).2.cells.size := by
  induction literal with
  | undefined | data _ | intrinsic _ => exact ⟨.refl heap, trivial⟩
  | mutable initial ih =>
      obtain ⟨hevolves, hbelow⟩ := ih
      refine ⟨hevolves.trans (.alloc hbelow (.refl _)), ?_⟩
      simp [Literal.make, Heap.alloc, Value.Below]

theorem below_inputAt {inputs : List Value} {n : Nat} (hinputs : ∀ x ∈ inputs, x.Below n)
    (index : Option Nat) : (inputAt inputs index).Below n := by
  unfold inputAt
  cases hx : index.bind (inputs[·]?) with
  | none => trivial
  | some x =>
      obtain ⟨i, -, hi⟩ := Option.bind_eq_some_iff.mp hx
      exact hinputs x (List.mem_of_getElem? hi)

theorem lawful_assignFirst {inputs : List Value} {value : Value} {world : World Memory}
    (hvalue : value.Below world.heap.cells.size) :
    (assignFirst inputs value world).Lawful (fun _ => 0) world.heap := by
  unfold assignFirst
  split
  · exact ⟨.assign hvalue (.refl _), Nat.zero_le _, belowResult_data _ _⟩
  · exact ⟨.refl _, Nat.zero_le _, belowResult_undefined _⟩

theorem lawful_bumping (limit : Int) (inputs : List Value) (world : World Memory) :
    (Code.bumping limit inputs world).Lawful (fun _ => 0) world.heap := by
  unfold Code.bumping
  split
  · dsimp only
    split
    · refine ⟨.assign ?_ (.refl _), Nat.zero_le _, belowResult_undefined _⟩
      trivial
    · exact ⟨.refl _, Nat.zero_le _, belowResult_undefined _⟩
  · exact ⟨.refl _, Nat.zero_le _, belowResult_undefined _⟩

/-- The bodies of scripts are lawful. -/
theorem Code.lawful (code : Code) (world : World Memory) :
    (code.instantiate world).1.Lawful (fun _ => 0) (code.instantiate world).2.heap.cells.size := by
  intro inputs later hmade hlater hinputs
  cases code with
  | constant json =>
      refine Body.lawful_constant _ ?_ inputs later hmade hlater hinputs
      trivial
  | made literal =>
      exact Body.lawful_constant _ (literal.evolves_make world.heap).2 inputs later hmade hlater hinputs
  | fresh literal =>
      obtain ⟨hevolves, hbelow⟩ := literal.evolves_make later.heap
      refine ⟨hevolves, Nat.zero_le _, ?_⟩
      rintro _ ⟨⟩
      exact hbelow
  | input index =>
      refine ⟨.refl _, Nat.zero_le _, ?_⟩
      rintro _ ⟨⟩
      exact below_inputAt hinputs index
  | list => exact ⟨.refl _, Nat.zero_le _, belowResult_data _ _⟩
  | sum start => exact ⟨.refl _, Nat.zero_le _, belowResult_data _ _⟩
  | fail reason => exact ⟨.refl _, Nat.zero_le _, belowResult_error _ _⟩
  | count => exact ⟨.refl _, Nat.zero_le _, belowResult_data _ _⟩
  | assign json => exact lawful_assignFirst trivial
  | copy index => exact lawful_assignFirst (below_inputAt hinputs index)
  | bump limit => exact lawful_bumping limit inputs later
  | delete handle => exact ⟨.refl _, Nat.zero_le _, belowResult_data _ _⟩

end Script

/-! ## Histories -/

/-- The world in which the rule of a variable was run last. -/
def Firing.last? (slot : Slot) (past : List (Firing σ)) : Option (World σ) :=
  (past.filter fun firing => firing.slot = slot).getLast?.map Firing.world

theorem Firing.last?_self (past : List (Firing σ)) (slot : Slot) (world : World σ) :
    last? slot (past ++ [⟨slot, world⟩]) = some world := by
  simp [last?]

theorem Firing.last?_other {slot other : Slot} (h : other ≠ slot) (past : List (Firing σ)) (world : World σ) :
    last? other (past ++ [⟨slot, world⟩]) = last? other past := by
  simp [last?, Ne.symm h]

/-- The runs of an act. -/
def Act.firings (g : Graph σ) : Act σ → List (Firing σ)
  | op o => o.firings g
  | assign _ _ => []

/-- The runs of acts, one after the other. -/
def Act.firingsAll (g : Graph σ) : List (Act σ) → List (Firing σ)
  | [] => []
  | act :: acts => act.firings g ++ firingsAll (act.apply g) acts

namespace Graph

/-- The rule of a variable has been run on stamps, whatever its body did: the world is what the rule made of it,
the variable keeps the result if it is still there, and no other variable has changed but to disappear. -/
structure Fired (g : Graph σ) (slot : Slot) (rule : Rule σ) (stamps : List Stamp)
    (out : Except Fault Value × Graph σ) : Prop where
  result : out.1 = rule.result g.world (stamps.map Stamp.result)
  world : out.2.world = rule.world g.world (stamps.map Stamp.result)
  self : ∀ {w : Variable σ}, out.2.vars.get? slot = some w → w.cache = some { stamps, result := out.1 }
  others : ∀ {other : Slot} {w : Variable σ}, other ≠ slot → out.2.vars.get? other = some w →
    g.vars.get? other = some w

theorem world_deleteAll (slots : List Slot) (g : Graph σ) : (slots.foldl delete g).world = g.world := by
  induction slots generalizing g with
  | nil => rfl
  | cons slot slots ih => exact (ih _).trans (delete_world g slot)

theorem world_run (g : Graph σ) (rule : Rule σ) (stamps : List Stamp) :
    (g.run rule stamps).2.world = rule.world g.world (stamps.map Stamp.result) := by
  cases rule with
  | undefined => rfl
  | importing name source => rfl
  | define body =>
      simp only [run, call, Rule.world, ← values_eq]
      cases values stamps with
      | error fault => rfl
      | ok inputs => exact world_deleteAll _ _

/-- A run leaves no variable that was not there as it is. -/
theorem get?_of_run {g : Graph σ} {rule : Rule σ} {stamps : List Stamp} {slot : Slot} {w : Variable σ}
    (hw : (g.run rule stamps).2.vars.get? slot = some w) : g.vars.get? slot = some w := by
  refine run_invariant (P := fun h => h.vars.get? slot = some w → g.vars.get? slot = some w) ?_
    (fun _ hh => hh) (fun hw => hw) rule stamps hw
  intro h other hh hw
  rw [delete_vars, Slots.get?_remove] at hw
  split at hw
  · cases hw
  · exact hh hw

theorem fired_conclude {g : Graph σ} {slot : Slot} {stamps : List Stamp}
    (hmiss : g.cached? slot stamps = none) (rule : Rule σ) :
    g.Fired slot rule stamps (g.conclude slot rule stamps) := by
  rw [conclude_miss hmiss]
  cases hv : (g.run rule stamps).2.vars.get? slot with
  | none =>
      rw [keep_dead hv]
      refine ⟨run_fst g rule stamps, world_run g rule stamps, fun hw => ?_, fun _ hw => get?_of_run hw⟩
      rw [hv] at hw
      cases hw
  | some v =>
      obtain ⟨log, hkeep⟩ := keep_live hv stamps (g.run rule stamps).1
      rw [hkeep]
      refine ⟨run_fst g rule stamps, world_run g rule stamps, fun hw => ?_, fun hother hw => ?_⟩
      · rw [get?_set_cache hv, if_pos rfl] at hw
        cases hw
        rfl
      · rw [get?_set_cache hv, if_neg hother] at hw
        exact get?_of_run hw

/-- The invariant of a graph with a history: what a variable keeps was made by the last run of its rule. -/
structure Recorded (held : σ → Nat) (past : List (Firing σ)) (g : Graph σ) : Prop where
  kept : g.Kept (Body.Lawful held g.world.heap.cells.size)
  world : g.world.Proper held
  caches : ∀ {slot : Slot} {v : Variable σ} {cache : Cache}, g.vars.get? slot = some v →
    v.cache = some cache → ∃ before, Firing.last? slot past = some before ∧ before.heap.Grounded ∧
      Traced g.world.heap v.rule cache before

/-- What an evaluation leads to: the invariant holds with its runs added to the history, no variable has
appeared, the mutables are in a later state, and the result is no mutable that is not there. -/
structure Records (held : σ → Nat) (past : List (Firing σ)) (g : Graph σ) (fired : List (Firing σ))
    (out : Except Fault Value × Graph σ) : Prop where
  recorded : Recorded held (past ++ fired) out.2
  shrinks : g.Shrinks out.2
  heap : g.world.heap.Grows out.2.world.heap
  below : BelowResult out.2.world.heap.cells.size out.1

section Evaluation

variable {held : σ → Nat} {past : List (Firing σ)} {g : Graph σ}

theorem Recorded.records_none (hg : Recorded held past g) {result : Except Fault Value}
    (hresult : BelowResult g.world.heap.cells.size result) : Records held past g [] (result, g) :=
  ⟨by rwa [List.append_nil], shrinks_refl g, g.world.heap.grows_refl, hresult⟩

theorem Recorded.conclude (hg : Recorded held past g) {slot : Slot} {rule : Rule σ}
    (hrule : rule.Satisfies (Body.Lawful held g.world.heap.cells.size))
    (hown : ∀ v, g.vars.get? slot = some v → v.rule = rule) {stamps : List Stamp}
    (hstamps : ∀ stamp ∈ stamps, g.world.heap.Sampled stamp) :
    Records held past g (g.firingOf slot stamps) (g.conclude slot rule stamps) := by
  cases hcached : g.cached? slot stamps with
  | some result =>
      obtain ⟨v, cache, hv, hcache, -, rfl⟩ := cached?_eq_some_iff.mp hcached
      obtain ⟨before, -, -, htraced⟩ := hg.caches hv hcache
      rw [conclude_hit hcached, firingOf_hit hcached]
      exact hg.records_none htraced.below
  | none =>
      have hfired := fired_conclude hcached rule
      have hshrinks := shrinks_conclude g slot rule stamps
      have hkept := hg.kept.conclude stamps hown
      rw [firingOf_miss hcached]
      have hresults : ∀ result ∈ stamps.map Stamp.result,
          BelowResult g.world.heap.cells.size result := by
        simpa using fun stamp hstamp => (hstamps stamp hstamp).below
      obtain ⟨hgrows, hworld, hbelow⟩ := Rule.proper_world hrule (Nat.le_refl _) hg.world hresults
      rw [← hfired.world] at hgrows hworld hbelow
      rw [← hfired.result] at hbelow
      refine ⟨⟨hkept.imp fun _ => Body.Lawful.mono hgrows.size, hworld, ?_⟩, hshrinks, hgrows, hbelow⟩
      intro other w cache hw hcache
      by_cases hother : other = slot
      · subst hother
        rw [hfired.self hw] at hcache
        cases hcache
        obtain ⟨v, hv, hwv⟩ := hshrinks other w hw
        have hrulew : w.rule = rule := (Variable.rule_eq_of_bare_eq hwv).trans (hown v hv)
        refine ⟨g.world, Firing.last?_self past other g.world, hg.world.heap, ?_⟩
        rw [hrulew]
        refine ⟨hfired.result, hstamps, ?_, ?_, hbelow⟩
        · rw [hfired.world] at hgrows
          exact hgrows
        · rw [hfired.world]
          exact Heap.grows_refl _
      · obtain ⟨before, hlast, hgrounded, htraced⟩ := hg.caches (hfired.others hother hw) hcache
        exact ⟨before, (Firing.last?_other hother past g.world).trans hlast, hgrounded, htraced.grows hgrows⟩

/-- Reading leads on from graph to graph, and all its stamps were taken on the way. -/
theorem Recorded.readEach {eval : Evaluator σ} {record : Recorder σ}
    (heval : ∀ {past : List (Firing σ)} {g : Graph σ} (slot : Slot), Recorded held past g →
      Records held past g (record slot g) (eval slot g))
    (reads : List (ModuleId × String)) (hg : Recorded held past g) :
    Recorded held (past ++ readFirings eval record reads g) (Graph.readEach eval reads g).2 ∧
      g.Shrinks (Graph.readEach eval reads g).2 ∧
      g.world.heap.Grows (Graph.readEach eval reads g).2.world.heap ∧
      ∀ stamp ∈ (Graph.readEach eval reads g).1,
        (Graph.readEach eval reads g).2.world.heap.Sampled stamp := by
  induction reads generalizing past g with
  | nil =>
      refine ⟨?_, shrinks_refl g, g.world.heap.grows_refl, by simp [Graph.readEach]⟩
      rwa [readFirings, List.append_nil]
  | cons first reads ih =>
      have hread : Recorded held (past ++ ((g.lookup first.1 first.2).map fun slot => record slot g).getD [])
            (read eval first.1 first.2 g).2 ∧ g.Shrinks (read eval first.1 first.2 g).2 ∧
          g.world.heap.Grows (read eval first.1 first.2 g).2.world.heap ∧
          (read eval first.1 first.2 g).2.world.heap.Sampled (read eval first.1 first.2 g).1 := by
        unfold read
        cases g.lookup first.1 first.2 with
        | none =>
            refine ⟨?_, shrinks_refl g, g.world.heap.grows_refl, sampled_builtin _ first.2⟩
            rwa [Option.map_none, Option.getD_none, List.append_nil]
        | some slot =>
            have hrecords := heval slot hg
            refine ⟨hrecords.recorded, hrecords.shrinks, hrecords.heap, hrecords.below, fun r hr => ?_⟩
            simp only at hr ⊢
            rw [hr]
            exact Nat.le_refl _
      obtain ⟨hmid, hshrinks, hgrows, hstamp⟩ := hread
      obtain ⟨hdone, hshrinks', hgrows', hstamps⟩ := ih hmid
      rw [List.append_assoc] at hdone
      refine ⟨hdone, hshrinks.trans hshrinks', hgrows.trans hgrows', ?_⟩
      simp only [Graph.readEach, List.forall_mem_cons]
      exact ⟨hstamp.grows hgrows', hstamps⟩

/-- Every evaluation keeps the invariant. -/
theorem Recorded.evaluateWithin (hg : Recorded held past g) (depth : Nat) (path : List Slot) (slot : Slot) :
    Records held past g (firingsWithin depth path slot g) (Graph.evaluateWithin depth path slot g) := by
  induction depth generalizing past g path slot with
  | zero =>
      unfold Graph.evaluateWithin
      split
      · exact hg.records_none (belowResult_error _ _)
      · split <;> exact hg.records_none (belowResult_error _ _)
  | succ depth ih =>
      by_cases hmem : slot ∈ path
      · rw [evaluateWithin_mem hmem, firingsWithin_mem hmem]
        exact hg.records_none (belowResult_error _ _)
      cases hv : g.vars.get? slot with
      | none =>
          rw [evaluateWithin_dead hmem hv, firingsWithin_dead hv]
          exact hg.records_none (belowResult_error _ _)
      | some v =>
          obtain ⟨hmid, hshrinks, hgrows, hstamps⟩ :=
            Recorded.readEach (fun next hg => ih hg (slot :: path) next) v.reads hg
          rw [evaluateWithin_succ hmem hv, firingsWithin_succ hmem hv]
          have hrule : v.rule.Satisfies (Body.Lawful held
              (Graph.readEach (Graph.evaluateWithin depth (slot :: path)) v.reads g).2.world.heap.cells.size) :=
            fun body hbody => (hg.kept.rules hv body hbody).mono hgrows.size
          -- the variable may be gone by now, but has no other rule
          have hown : ∀ w, (Graph.readEach (Graph.evaluateWithin depth (slot :: path)) v.reads g).2.vars.get?
              slot = some w → w.rule = v.rule := by
            intro w hw
            obtain ⟨u, hu, hwu⟩ := hshrinks slot w hw
            rw [hv] at hu
            cases hu
            exact Variable.rule_eq_of_bare_eq hwu
          have hdone := hmid.conclude hrule hown hstamps
          refine ⟨?_, hshrinks.trans hdone.shrinks, hgrows.trans hdone.heap, hdone.below⟩
          rw [← List.append_assoc]
          exact hdone.recorded

end Evaluation

/-! ## Runs of acts -/

section Acts

variable {held : σ → Nat} {past : List (Firing σ)} {g : Graph σ}

theorem Recorded.evaluates (hg : Recorded held past g) (op : Op σ) (hop : op.Evaluates) :
    Recorded held (past ++ op.firings g) (op.apply g) := by
  refine op_traced (R := fun g fired h => ∀ past, Recorded held past g → Recorded held (past ++ fired) h)
    ?_ ?_ ?_ hop g past hg
  · intro g past hg
    rwa [List.append_nil]
  · intro g₁ g₂ g₃ s t h₁₂ h₂₃ past hg₁
    rw [← List.append_assoc]
    exact h₂₃ _ (h₁₂ past hg₁)
  · exact fun slot g past hg => (hg.evaluateWithin g.vars.size [] slot).recorded

/-- Every edit keeps the invariant, if it brings in no other bodies. -/
theorem Recorded.edit (hg : Recorded held past g) {edit : Edit σ} (hvalid : edit.Valid g)
    (hbody : edit.Satisfies (Body.Lawful held g.world.heap.cells.size)) :
    Recorded held past (edit.apply g) := by
  have hedited := (closed_edited fun _ _ => hg.kept.rules).apply hg.kept.edited edit hvalid hbody
  have hkept := hg.kept.of_edited hedited
  rw [← hedited.world] at hkept
  refine ⟨hkept, hedited.world ▸ hg.world, fun {slot w cache} hw hcache => ?_⟩
  rw [hedited.world]
  rcases hedited.vars slot w hw with hold | hnew
  · exact hg.caches hold hcache
  · rw [hnew.2] at hcache
    cases hcache

theorem Recorded.assign (hg : Recorded held past g) {r : Ref} {value : Value}
    (hvalid : (Act.assign r value).Valid g) : Recorded held past ((Act.assign r value).apply g) := by
  have hgrows := g.world.heap.grows_assign r value
  refine ⟨⟨hg.kept.sound.congr rfl rfl, fun hv body hbody => ?_, hg.kept.caches⟩,
    ⟨hg.world.heap.assign r hvalid.2, Nat.le_trans hg.world.host hgrows.size⟩,
    fun {slot v cache} hv hcache => ?_⟩
  · exact (hg.kept.rules hv body hbody).mono hgrows.size
  · obtain ⟨before, hlast, hgrounded, htraced⟩ := hg.caches hv hcache
    exact ⟨before, hlast, hgrounded, htraced.grows hgrows⟩

/-- After every run of acts whose bodies are lawful when they are brought in, what is kept was made by the last
runs. -/
theorem Recorded.applyAll (hg : Recorded held past g) {acts : List (Act σ)} (hvalid : Act.ValidAll g acts)
    (hbodies : Act.SatisfiesAll (fun g => Body.Lawful held g.world.heap.cells.size) g acts) :
    Recorded held (past ++ Act.firingsAll g acts) (Act.applyAll g acts) := by
  induction acts generalizing past g with
  | nil => rwa [Act.firingsAll, List.append_nil]
  | cons act acts ih =>
      rw [Act.firingsAll, ← List.append_assoc]
      refine ih ?_ hvalid.2 hbodies.2
      cases act with
      | op op =>
          cases op with
          | edit edit =>
              rw [Act.firings, Op.firings, List.append_nil]
              exact hg.edit hvalid.1 hbodies.1
          | settle => exact hg.evaluates .settle trivial
          | value m name => exact hg.evaluates (.value m name) trivial
      | assign r value =>
          rw [Act.firings, List.append_nil]
          exact hg.assign hvalid.1

end Acts

end Graph

end CellGraph
