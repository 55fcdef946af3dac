import CellGraph.Proofs.Graph.Firings

/-!
# One run for each edit

In a graph without cycles whose bodies set no mutable and delete nothing, evaluation runs a rule only of a
variable that is not at rest, and brings it to rest; and what is at rest stays so until something is edited.
So no two runs of a sequence of reads belong to one variable (`Spends`), whatever the bodies return and
however often a variable is come to.

The stamps decide this, not the values: a body need not return the same twice, since it is not run twice.
-/

namespace CellGraph.Graph

variable {σ : Type}

/-- A graph without cycles whose bodies set no mutable and delete nothing. -/
structure Placid (g : Graph σ) : Prop where
  orderly : g.Orderly
  quiet : ∀ {slot : Slot} {v : Variable σ}, g.vars.get? slot = some v → v.rule.Satisfies Body.Quiet

theorem Placid.evaluateWithin {g : Graph σ} (hg : g.Placid) (depth : Nat) (path : List Slot) (slot : Slot) :
    (evaluateWithin depth path slot g).2.Placid := by
  obtain ⟨horderly, halike⟩ := hg.orderly.evaluateWithin depth path slot
  refine ⟨horderly, fun {other w} hw => ?_⟩
  obtain ⟨v, hv, hwv⟩ := halike.shrinks other w hw
  rw [Variable.rule_eq_of_bare_eq hwv]
  exact hg.quiet hv

/-- Rules of variables have been run between two graphs: of each variable at most one, which was not at rest
before and is at rest now. No other variable has changed. -/
structure Spends (g : Graph σ) (slots : List Slot) (h : Graph σ) : Prop where
  leaves : g.Leaves h
  nodup : slots.Nodup
  before : ∀ slot ∈ slots, ¬ g.AtRest slot
  after : ∀ slot ∈ slots, h.AtRest slot
  others : ∀ {slot : Slot}, slot ∉ slots → h.vars.get? slot = g.vars.get? slot

theorem spends_refl (g : Graph σ) : g.Spends [] g where
  leaves := leaves_refl g
  nodup := List.nodup_nil
  before := by simp
  after := by simp
  others _ := rfl

/-- What has come to rest is not run again. -/
theorem Spends.trans {g₁ g₂ g₃ : Graph σ} {s t : List Slot} (h₁₂ : g₁.Spends s g₂) (h₂₃ : g₂.Spends t g₃) :
    g₁.Spends (s ++ t) g₃ where
  leaves := h₁₂.leaves.trans h₂₃.leaves
  nodup := by
    refine List.nodup_append'.mpr ⟨h₁₂.nodup, h₂₃.nodup, fun slot hs ht => ?_⟩
    exact h₂₃.before slot ht (h₁₂.after slot hs)
  before slot hslot := by
    rcases List.mem_append.mp hslot with hs | ht
    · exact h₁₂.before slot hs
    · exact fun hrest => h₂₃.before slot ht (h₁₂.leaves.rest hrest).1
  after slot hslot := by
    rcases List.mem_append.mp hslot with hs | ht
    · exact (h₂₃.leaves.rest (h₁₂.after slot hs)).1
    · exact h₂₃.after slot ht
  others {slot} hslot := by
    rw [List.mem_append, not_or] at hslot
    exact (h₂₃.others hslot.2).trans (h₁₂.others hslot.1)

/-! ## Evaluation -/

/-- A conclusion from inputs at rest runs the rule only if the variable was not at rest, and brings it to
rest. -/
theorem spends_conclude {g : Graph σ} {slot : Slot} {v : Variable σ} (hv : g.vars.get? slot = some v)
    (hrule : v.rule.Satisfies Body.Quiet)
    (hinputs : ∀ read ∈ v.reads, ∀ next, g.lookup read.1 read.2 = some next → g.AtRest next) :
    g.Spends ((g.firingOf slot (g.keptStamps v.reads)).map Firing.slot)
      (g.conclude slot v.rule (g.keptStamps v.reads)).2 := by
  have hlasting : v.rule.Satisfies Body.Lasting := fun body hbody => (hrule body hbody).lasting
  cases hcached : g.cached? slot (g.keptStamps v.reads) with
  | some result =>
      rw [conclude_hit hcached, firingOf_hit hcached]
      exact spends_refl g
  | none =>
      rcases conclude_cases hv hlasting (g.keptStamps v.reads) with ⟨cache, hcache, hsame, -⟩ | ⟨hmiss, hran⟩
      · rw [cached?_eq_some_iff.mpr ⟨v, cache, hv, hcache, hsame, rfl⟩] at hcached
        cases hcached
      · have hleaves := hran.leaves hv hmiss (versionOf_conclude hv hrule _)
        rw [firingOf_miss hcached]
        refine ⟨hleaves, List.nodup_singleton slot, ?_, ?_, fun hother => hran.others ?_⟩
        · simp only [List.map_cons, List.map_nil, List.forall_mem_singleton]
          intro hrest
          cases hrest with
          | gone hdead =>
              rw [hv] at hdead
              cases hdead
          | kept hw hcache hsame _ =>
              rw [hv] at hw
              cases hw
              rw [hmiss _ hcache] at hsame
              cases hsame
        · simp only [List.map_cons, List.map_nil, List.forall_mem_singleton]
          exact hran.atRest hleaves hinputs
        · simpa using hother

/-- What holds of each evaluation on the way, holds of reading. -/
theorem spends_readEach {g : Graph σ} {eval : Evaluator σ} {record : Recorder σ}
    {reads : List (ModuleId × String)}
    (heval : ∀ read ∈ reads, ∀ next, g.lookup read.1 read.2 = some next → ∀ {h : Graph σ}, h.Placid →
      g.Alike h → (eval next h).2.Placid ∧ h.Spends ((record next h).map Firing.slot) (eval next h).2)
    {h : Graph σ} (hh : h.Placid) (halike : g.Alike h) :
    h.Spends ((readFirings eval record reads h).map Firing.slot) (readEach eval reads h).2 := by
  induction reads generalizing h with
  | nil => exact spends_refl h
  | cons first reads ih =>
      rw [List.forall_mem_cons] at heval
      have hread : (read eval first.1 first.2 h).2.Placid ∧
          h.Spends ((((h.lookup first.1 first.2).map fun slot => record slot h).getD []).map Firing.slot)
            (read eval first.1 first.2 h).2 := by
        unfold read
        cases hlookup : h.lookup first.1 first.2 with
        | none => exact ⟨hh, spends_refl h⟩
        | some next => exact heval.1 next (halike.lookup first.1 first.2 ▸ hlookup) hh halike
      rw [readFirings, List.map_append]
      exact hread.2.trans (ih heval.2 hread.1 (halike.trans hread.2.leaves.alike))

/-- An evaluation brings its variable to rest, and runs each rule at most once. -/
theorem Placid.evaluateWithin_spends {g : Graph σ} (hg : g.Placid) {path : List Slot} {slot : Slot}
    {depth : Nat} (htrail : g.Trail path slot) (hdepth : g.unvisited path ≤ depth) :
    g.Rests slot (Graph.evaluateWithin depth path slot g) ∧
      g.Spends ((firingsWithin depth path slot g).map Firing.slot)
        (Graph.evaluateWithin depth path slot g).2 := by
  have hmem := (hg.orderly.acyclicFrom slot).not_mem htrail
  -- by induction on the depth, which is enough for all that can be reached
  induction depth generalizing g path slot with
  | zero =>
      cases hv : g.vars.get? slot with
      | none =>
          rw [evaluateWithin_dead hmem hv]
          exact ⟨⟨leaves_refl g, .gone hv, by simp [keptResult, kept?, hv]⟩, spends_refl g⟩
      | some v =>
          have hlt := unvisited_cons_lt hmem hv
          omega
  | succ depth ih =>
      cases hv : g.vars.get? slot with
      | none =>
          rw [evaluateWithin_dead hmem hv, firingsWithin_dead hv]
          exact ⟨⟨leaves_refl g, .gone hv, by simp [keptResult, kept?, hv]⟩, spends_refl g⟩
      | some v =>
          have hlt := unvisited_cons_lt hmem hv
          have hnext : ∀ read ∈ v.reads, ∀ next, g.lookup read.1 read.2 = some next →
              ∀ {h : Graph σ}, h.Placid → g.Alike h →
                h.Rests next (Graph.evaluateWithin depth (slot :: path) next h) ∧
                  h.Spends ((firingsWithin depth (slot :: path) next h).map Firing.slot)
                    (Graph.evaluateWithin depth (slot :: path) next h).2 := by
            intro read hread next hlookup h hh halike
            have htrail' : h.Trail (slot :: path) next := by
              unfold Trail
              rw [halike.dependsOn]
              exact htrail.cons ⟨v, read, hv, hread, hlookup⟩
            refine ih hh htrail' ?_ ((hh.orderly.acyclicFrom next).not_mem htrail')
            rw [halike.unvisited]
            omega
          have hreads : (readEach (Graph.evaluateWithin depth (slot :: path)) v.reads g).2.Placid ∧
              g.Leaves (readEach (Graph.evaluateWithin depth (slot :: path)) v.reads g).2 ∧
              (readEach (Graph.evaluateWithin depth (slot :: path)) v.reads g).1 =
                (readEach (Graph.evaluateWithin depth (slot :: path)) v.reads g).2.keptStamps v.reads ∧
              ∀ read ∈ v.reads, ∀ next, g.lookup read.1 read.2 = some next →
                (readEach (Graph.evaluateWithin depth (slot :: path)) v.reads g).2.AtRest next := by
            refine readEach_rests (P := Placid) (T := fun _ => True) ?_ hg (alike_refl g) fun _ _ => trivial
            intro read hread next hlookup k hk hgk _
            exact ⟨hk.evaluateWithin depth (slot :: path) next, (hnext read hread next hlookup hk hgk).1⟩
          have hspends : g.Spends ((readFirings (Graph.evaluateWithin depth (slot :: path))
              (firingsWithin depth (slot :: path)) v.reads g).map Firing.slot)
              (readEach (Graph.evaluateWithin depth (slot :: path)) v.reads g).2 := by
            refine spends_readEach (fun read hread next hlookup k hk hgk => ?_) hg (alike_refl g)
            exact ⟨hk.evaluateWithin depth (slot :: path) next, (hnext read hread next hlookup hk hgk).2⟩
          obtain ⟨hplacid, hleaves, hstamps, hatRest⟩ := hreads
          obtain ⟨w, hw, hwv⟩ := hleaves.alike.exists_of_get? hv
          rw [evaluateWithin_succ hmem hv, firingsWithin_succ hmem hv, hstamps, List.map_append,
            ← Variable.rule_eq_of_bare_eq hwv]
          rw [← Variable.reads_eq_of_bare_eq hwv] at hplacid hleaves hspends hatRest hw ⊢
          have hinputs : ∀ read ∈ w.reads, ∀ next,
              (readEach (Graph.evaluateWithin depth (slot :: path)) w.reads g).2.lookup read.1 read.2 =
                some next →
              (readEach (Graph.evaluateWithin depth (slot :: path)) w.reads g).2.AtRest next := by
            intro read hread next hlookup
            rw [hleaves.alike.lookup] at hlookup
            exact hatRest read hread next hlookup
          have hquiet := hplacid.quiet hw
          refine ⟨?_, hspends.trans (spends_conclude hw hquiet hinputs)⟩
          exact rests_conclude hleaves hw (fun body hbody => (hquiet body hbody).lasting) hinputs
            (versionOf_conclude hw hquiet _)

/-! ## Sequences of reads -/

theorem calm_placid : Calm (Placid (σ := σ)) where
  orderly hg := hg.orderly
  evaluate {g} slot hg := by
    have hrests := (hg.evaluateWithin_spends (g.trail_nil slot) hg.orderly.kept.sound.unvisited_nil_le).1
    exact ⟨hg.evaluateWithin g.vars.size [] slot, hrests.leaves.version⟩

/-- Operations that evaluate run each rule at most once. -/
theorem Placid.applyAll {g : Graph σ} (hg : g.Placid) (ops : List (Op σ)) (hops : ∀ op ∈ ops, op.Evaluates) :
    (Op.applyAll g ops).Placid ∧
      g.Spends ((Op.firingsAll g ops).map Firing.slot) (Op.applyAll g ops) := by
  refine applyAll_traced (R := fun g s h => g.Placid → h.Placid ∧ g.Spends (s.map Firing.slot) h)
    (fun g hg => ⟨hg, spends_refl g⟩) ?_ ?_ ops hops g hg
  · intro g₁ g₂ g₃ s t h₁₂ h₂₃ hg₁
    obtain ⟨hg₂, hspends⟩ := h₁₂ hg₁
    obtain ⟨hg₃, hspends'⟩ := h₂₃ hg₂
    rw [List.map_append]
    exact ⟨hg₃, hspends.trans hspends'⟩
  · intro slot g hg
    exact ⟨hg.evaluateWithin g.vars.size [] slot,
      (hg.evaluateWithin_spends (g.trail_nil slot) hg.orderly.kept.sound.unvisited_nil_le).2⟩

/-- A name that has a value keeps it, whatever is read in between. -/
theorem Placid.value_again {g : Graph σ} (hg : g.Placid) {m : ModuleId} {name : String} {value : Value}
    (hvalue : (g.value m name).1 = .ok value) {ops : List (Op σ)} (hops : ∀ op ∈ ops, op.Evaluates) :
    ((Op.applyAll (g.value m name).2 ops).value m name).1 = .ok value := by
  obtain ⟨hok, slot, hlookup, hread⟩ := exists_of_value_ok hvalue
  have hsettled : g.settle.2.Placid := (hg.applyAll [.settle] (by simp [Op.Evaluates])).1
  have hroots : ∀ root ∈ g.settle.2.roots, g.settle.2.AtRest root := by
    have hpass : g.settle.2.evaluateAll g.settle.2.roots = g.settle.2 := pass_of_settleWithin hok
    have hall := (calm_placid.evaluateAll hsettled g.settle.2.roots).2.2
    rwa [hpass] at hall
  have hrests := calm_placid.evaluate_rests hsettled slot
  rw [hread] at hvalue ⊢
  obtain ⟨hlater, hspends⟩ := (calm_placid.evaluate slot hsettled).1.applyAll ops hops
  generalize Op.applyAll (g.settle.2.evaluate slot).2 ops = h at hlater hspends ⊢
  have hleaves : g.settle.2.Leaves h := hrests.leaves.trans hspends.leaves
  -- the roots are still at rest, so settling finds nothing to do
  have hpass : h.pass = h := by
    refine (evaluateAll_eq_iff h.roots h).mpr fun root hroot => ?_
    rw [hleaves.alike.roots] at hroot
    rw [(hleaves.rest (hroots root hroot)).1.evaluate hlater.orderly.kept.sound]
  have hsettle : h.settle = (.ok (), h) := by
    refine settleWithin_of_pass_eq hpass ?_
    rw [hleaves.alike.maxPasses, maxPasses_settle]
    exact maxPasses_pos_of_settle hok
  obtain ⟨hrest, hget⟩ := hspends.leaves.rest hrests.rest
  calc (h.value m name).1 = (h.settle.2.evaluate slot).1 := by
        rw [value_of_settle (by rw [hsettle]) (by rw [hsettle, hleaves.alike.lookup]; exact hlookup)]
    _ = h.keptResult slot := by rw [hsettle, hrest.evaluate hlater.orderly.kept.sound]
    _ = (g.settle.2.evaluate slot).2.keptResult slot := keptResult_congr hget
    _ = .ok value := hrests.result.symm.trans hvalue

theorem applyAll_append (g : Graph σ) (first second : List (Op σ)) :
    Op.applyAll g (first ++ second) = Op.applyAll (Op.applyAll g first) second :=
  List.foldl_append

/-- A rule runs at most once for each edit. The graph may come from any acts; now its bodies set no mutable and
delete nothing, though they may make mutables and need not return the same twice, and there is no cycle. Then
in any sequence of settling and reading no two runs are of one variable, and the graph counts just these runs.
What a variable keeps, such as the mutable that it has made, changes only where its own rule is run, and a name
that has a value has the very same value ever after. With two passes or more, settling always succeeds. -/
theorem rules_run_once (world : World σ) (maxPasses : Nat) (acts : List (Act σ))
    (hvalid : Act.ValidAll { world, maxPasses } acts) :
    let g := Act.applyAll { world, maxPasses } acts
    (∀ slot v, g.vars.get? slot = some v → v.rule.Satisfies Body.Quiet) →
      (∀ slot, ¬ Relation.TransGen g.DependsOn slot slot) →
      ∀ ops : List (Op σ), (∀ op ∈ ops, op.Evaluates) →
        ((Op.firingsAll g ops).map Firing.slot).Nodup ∧
        (Op.applyAll g ops).runs = g.runs + (Op.firingsAll g ops).length ∧
        (∀ first second, ops = first ++ second → ∀ slot,
          slot ∉ (Op.firingsAll (Op.applyAll g first) second).map Firing.slot →
            (Op.applyAll g ops).kept? slot = (Op.applyAll g first).kept? slot) ∧
        (∀ first second m name value, ops = first ++ .value m name :: second →
          ((Op.applyAll g first).value m name).1 = .ok value →
            ((Op.applyAll g ops).value m name).1 = .ok value) ∧
        (2 ≤ g.maxPasses → (Op.applyAll g ops).settle.1 = .ok ()) := by
  intro g hquiet hacyclic ops hops
  have hkept : g.Kept Body.Lasting :=
    (intact_applyAll world maxPasses acts hvalid).kept_of_rules
      fun slot v hv body hbody => (hquiet slot v hv body hbody).lasting
  have hg : g.Placid := ⟨⟨hkept, hacyclic⟩, fun {slot v} hv => hquiet slot v hv⟩
  obtain ⟨hlater, hspends⟩ := hg.applyAll ops hops
  refine ⟨hspends.nodup, counts_applyAll ops hops g, ?_, ?_, fun hpasses => ?_⟩
  · rintro first second rfl slot hslot
    rw [List.forall_mem_append] at hops
    have hsecond := ((hg.applyAll first hops.1).1.applyAll second hops.2).2
    rw [applyAll_append, kept?, hsecond.others hslot]
    rfl
  · rintro first second m name value rfl hvalue
    rw [List.forall_mem_append, List.forall_mem_cons] at hops
    rw [applyAll_append]
    exact (hg.applyAll first hops.1).1.value_again hvalue hops.2.2
  · refine (calm_placid.settleWithin_ok hlater ?_).1
    rwa [hspends.leaves.alike.maxPasses]

/-- A body that does not return the same each time, a mutable made from it, and an anonymous variable that comes
to both on two ways; the body is defined again after it has been run. -/
theorem rules_run_once_of_coin :
    let coin : Body Nat := fun _ world =>
      { result := .ok (.data (.bool (world.host % 3 == 0))), world := { world with host := world.host + 1 } }
    let start : Graph Nat := { world := { host := 0 }, maxPasses := 2 }
    let acts : List (Act Nat) := [.op (.edit .newModule),
      .op (.edit (.newVariable ⟨0⟩ none)), .op (.edit (.define ⟨0, 0⟩ (some "coin") [] coin)),
      .op (.edit (.newVariable ⟨0⟩ none)),
      .op (.edit (.define ⟨1, 0⟩ (some "cell") ["Mutable", "coin"] .mutableWrapper)),
      .op (.edit (.newVariable ⟨0⟩ (some "watch"))),
      .op (.edit (.define ⟨2, 0⟩ (some "shown") ["cell"] .mutableValue)),
      .op (.edit (.newVariable ⟨0⟩ none)), .op (.edit (.define ⟨3, 0⟩ none ["shown", "coin", "cell"] coin)),
      .op .settle, .op (.edit (.define ⟨0, 0⟩ (some "coin") [] coin))]
    let g := Act.applyAll start acts
    let ops : List (Op Nat) := [.settle, .value ⟨0⟩ "cell", .value ⟨0⟩ "coin", .settle]
    Act.ValidAll start acts ∧ (∀ slot v, g.vars.get? slot = some v → v.rule.Satisfies Body.Quiet) ∧
      (∀ slot, ¬ Relation.TransGen g.DependsOn slot slot) ∧ (∀ op ∈ ops, op.Evaluates) ∧
      ((Op.firingsAll g ops).map Firing.slot).Nodup ∧ (Op.applyAll g ops).runs = g.runs + 4 ∧
      (Op.applyAll g ops).settle.1 = .ok () := by
  intro coin start acts g ops
  have hcoin : coin.Quiet := ⟨fun _ _ => rfl, fun _ world => world.heap.extends_refl⟩
  have hvalid : Act.ValidAll start acts := by decide +kernel
  have hbodies : ∀ act ∈ acts, act.Satisfies Body.Quiet := by
    simp only [acts, List.forall_mem_cons]
    exact ⟨trivial, trivial, hcoin, trivial, Body.quiet_mutableWrapper, trivial, Body.quiet_mutableValue,
      trivial, hcoin, trivial, hcoin, by simp⟩
  have hquiet := rules_applyAll start.world 2 acts hvalid hbodies
  have hacyclic : ∀ slot, ¬ Relation.TransGen g.DependsOn slot slot := fun slot =>
    acyclicFrom_of_rank (fun slot => slot.index) (by decide +kernel) slot slot .refl
  have hops : ∀ op ∈ ops, op.Evaluates := by simp [ops, Op.Evaluates]
  obtain ⟨hnodup, hruns, -, -, hsettle⟩ := rules_run_once start.world 2 acts hvalid hquiet hacyclic ops hops
  have hfour : (Op.firingsAll g ops).length = 4 := by decide +kernel
  exact ⟨hvalid, hquiet, hacyclic, hops, hnodup, hfour ▸ hruns, hsettle (by decide +kernel)⟩

end CellGraph.Graph
