import CellGraph.Proofs.Effects
import CellGraph.Proofs.Graph.Cycles
import CellGraph.Proofs.Graph.Declarations
import CellGraph.Proofs.Graph.Nesting

/-!
# Settled graphs are up to date

Stamps are taken while inputs are read, before the body runs; inputs that are read later, and the body
itself, may set mutables that have been stamped. What is kept may so be out of date from the start, and
only the versions tell.

For every result that is kept there was a world in which the rule made it (`Traced`). The stamps were taken
in that world or before, and the present world comes after what the rule made of it. Where the stamps are
still those of the present, the versions of all mutables that were read are squeezed: they have not changed
in between, so neither have the contents, and what the body has set it has set to what was there. To run the
body again then changes nothing (`Rule.rerun`, `Dated.upToDate`).
-/

namespace CellGraph

variable {σ : Type}

/-- A stamp that was taken from a heap, or from an earlier state of it. -/
structure Heap.Sampled (h : Heap) (stamp : Stamp) : Prop where
  below : BelowResult h.cells.size stamp.result
  version : ∀ r, stamp.result = .ok (.mutable r) → stamp.version ≤ h.version r

theorem Heap.Sampled.grows {h h' : Heap} {stamp : Stamp} (hstamp : h.Sampled stamp) (hh : h.Grows h') :
    h'.Sampled stamp :=
  ⟨hstamp.below.mono hh.size, fun r hr => Nat.le_trans (hstamp.version r hr) (hh.version r)⟩

/-- What is kept was made by the rule in a world of which the present heap is a later state, from stamps
that had been taken before. -/
structure Traced (h : Heap) (rule : Rule σ) (cache : Cache) (before : World σ) : Prop where
  result : cache.result = rule.result before (cache.stamps.map Stamp.result)
  stamps : ∀ stamp ∈ cache.stamps, before.heap.Sampled stamp
  effects : before.heap.Grows (rule.world before (cache.stamps.map Stamp.result)).heap
  later : (rule.world before (cache.stamps.map Stamp.result)).heap.Grows h
  below : BelowResult h.cells.size cache.result

theorem Traced.grows {h h' : Heap} {rule : Rule σ} {cache : Cache} {before : World σ}
    (htraced : Traced h rule cache before) (hh : h.Grows h') : Traced h' rule cache before :=
  { htraced with later := htraced.later.trans hh, below := htraced.below.mono hh.size }

namespace Graph

/-- The invariant of a graph whose bodies are tame: what is kept can be traced. -/
structure Dated (g : Graph σ) : Prop where
  kept : g.Kept (Body.Tame g.world.heap.cells.size)
  heap : g.world.heap.Grounded
  caches : ∀ {slot : Slot} {v : Variable σ} {cache : Cache}, g.vars.get? slot = some v →
    v.cache = some cache → ∃ before, Traced g.world.heap v.rule cache before

/-- The second graph is what evaluation may have made of the first. -/
structure Later (g h : Graph σ) : Prop where
  alike : g.Alike h
  heap : g.world.heap.Grows h.world.heap

theorem later_refl (g : Graph σ) : g.Later g :=
  ⟨alike_refl g, g.world.heap.grows_refl⟩

theorem Later.trans {g₁ g₂ g₃ : Graph σ} (h₁₂ : g₁.Later g₂) (h₂₃ : g₂.Later g₃) : g₁.Later g₃ :=
  ⟨h₁₂.alike.trans h₂₃.alike, h₁₂.heap.trans h₂₃.heap⟩

/-- What an evaluation leads to: the invariant still holds, the graph is a later one, and the result is no
mutable that is not there. -/
structure Follows (g : Graph σ) (out : Except Fault Value × Graph σ) : Prop where
  dated : out.2.Dated
  later : g.Later out.2
  below : BelowResult out.2.world.heap.cells.size out.1

/-! ## Evaluation -/

theorem Dated.conclude {g : Graph σ} (hg : g.Dated) {slot : Slot} {v : Variable σ}
    (hv : g.vars.get? slot = some v) {stamps : List Stamp}
    (hstamps : ∀ stamp ∈ stamps, g.world.heap.Sampled stamp) :
    g.Follows (g.conclude slot v.rule stamps) := by
  have htame := hg.kept.rules hv
  have hlasting : v.rule.Satisfies Body.Lasting := fun body hbody => (htame body hbody).lasting
  have hkept : (g.conclude slot v.rule stamps).2.Kept (Body.Tame g.world.heap.cells.size) := by
    refine hg.kept.conclude stamps fun w hw => ?_
    rw [hv] at hw
    cases hw
    rfl
  rcases conclude_cases hv hlasting stamps with ⟨cache, hcache, -, hhit⟩ | ⟨-, hran⟩
  · obtain ⟨before, htraced⟩ := hg.caches hv hcache
    rw [hhit]
    exact ⟨hg, later_refl g, htraced.below⟩
  · have hresults : ∀ result ∈ stamps.map Stamp.result,
        BelowResult g.world.heap.cells.size result := by
      simpa using fun stamp hstamp => (hstamps stamp hstamp).below
    obtain ⟨hgrows, hgrounded, hbelow⟩ := Rule.grows_world htame (Nat.le_refl _) hg.heap hresults
    rw [← hran.world] at hgrows hgrounded hbelow
    rw [← hran.result] at hbelow
    refine ⟨⟨hkept.imp fun _ => Body.Tame.mono hgrows.size, hgrounded, ?_⟩, ⟨hran.alike, hgrows⟩, hbelow⟩
    intro other w cache hw hcache
    by_cases hother : other = slot
    · rw [hother, hran.self] at hw
      cases hw
      cases hcache
      refine ⟨g.world, hran.result, hstamps, ?_, ?_, hbelow⟩
      · rw [hran.world] at hgrows
        exact hgrows
      · rw [hran.world]
        exact Heap.grows_refl _
    · rw [hran.others hother] at hw
      obtain ⟨before, htraced⟩ := hg.caches hw hcache
      exact ⟨before, htraced.grows hgrows⟩

/-- A builtin is no mutable. -/
theorem sampled_builtin (h : Heap) (name : String) : h.Sampled { result := builtin name, version := 0 } := by
  refine ⟨fun value hvalue => ?_, fun r _ => Nat.zero_le _⟩
  simp only at hvalue
  unfold builtin at hvalue
  split at hvalue
  · cases hvalue
    trivial
  · cases hvalue

/-- Reading leads on from graph to graph, and all its stamps were taken on the way. -/
theorem Dated.readEach {eval : Evaluator σ}
    (heval : ∀ {g : Graph σ} (slot : Slot), g.Dated → g.Follows (eval slot g))
    (reads : List (ModuleId × String)) {g : Graph σ} (hg : g.Dated) :
    (Graph.readEach eval reads g).2.Dated ∧ g.Later (Graph.readEach eval reads g).2 ∧
      ∀ stamp ∈ (Graph.readEach eval reads g).1,
        (Graph.readEach eval reads g).2.world.heap.Sampled stamp := by
  induction reads generalizing g with
  | nil => exact ⟨hg, later_refl g, by simp [Graph.readEach]⟩
  | cons first reads ih =>
      have hread : (read eval first.1 first.2 g).2.Dated ∧ g.Later (read eval first.1 first.2 g).2 ∧
          (read eval first.1 first.2 g).2.world.heap.Sampled (read eval first.1 first.2 g).1 := by
        unfold read
        cases g.lookup first.1 first.2 with
        | none => exact ⟨hg, later_refl g, sampled_builtin _ first.2⟩
        | some slot =>
            have hfollows := heval slot hg
            refine ⟨hfollows.dated, hfollows.later, hfollows.below, fun r hr => ?_⟩
            simp only at hr ⊢
            rw [hr]
            exact Nat.le_refl _
      obtain ⟨hmid, hlater, hstamp⟩ := hread
      obtain ⟨hdone, hlater', hstamps⟩ := ih hmid
      refine ⟨hdone, hlater.trans hlater', ?_⟩
      simp only [Graph.readEach, List.forall_mem_cons]
      exact ⟨hstamp.grows hlater'.heap, hstamps⟩

/-- Every evaluation keeps the invariant. -/
theorem Dated.evaluateWithin {g : Graph σ} (hg : g.Dated) (depth : Nat) (path : List Slot) (slot : Slot) :
    g.Follows (evaluateWithin depth path slot g) := by
  have hfault : ∀ {g : Graph σ}, g.Dated → ∀ fault, g.Follows (.error fault, g) :=
    fun {g} hg fault => ⟨hg, later_refl g, belowResult_error _ fault⟩
  induction depth generalizing g path slot with
  | zero =>
      unfold Graph.evaluateWithin
      split
      · exact hfault hg _
      · split <;> exact hfault hg _
  | succ depth ih =>
      by_cases hmem : slot ∈ path
      · rw [evaluateWithin_mem hmem]
        exact hfault hg _
      cases hv : g.vars.get? slot with
      | none =>
          rw [evaluateWithin_dead hmem hv]
          exact hfault hg _
      | some v =>
          obtain ⟨hmid, hlater, hstamps⟩ :=
            Dated.readEach (fun next hg => ih hg (slot :: path) next) v.reads hg
          obtain ⟨w, hw, hwv⟩ := hlater.alike.exists_of_get? hv
          rw [evaluateWithin_succ hmem hv, ← Variable.rule_eq_of_bare_eq hwv]
          have hdone := hmid.conclude hw hstamps
          exact ⟨hdone.dated, hlater.trans hdone.later, hdone.below⟩

/-! ## Running again -/

/-- Where the stamps are still those of the present, the mutables that were read have not changed since
the rule was run, nor did the run change them. -/
theorem settled_of_traced {h : Graph σ} {rule : Rule σ} {cache : Cache} {before : World σ}
    (htraced : Traced h.world.heap rule cache before) {stamps : List Stamp}
    (hsame : Stamp.sameList cache.stamps stamps = true)
    (hpresent : ∀ stamp ∈ stamps, stamp = h.stampOf stamp.result) {r : Ref}
    (hr : .ok (.mutable r) ∈ cache.stamps.map Stamp.result) :
    r.index < before.heap.cells.size ∧
      (rule.world before (cache.stamps.map Stamp.result)).heap.version r = before.heap.version r ∧
      h.world.heap.content r = before.heap.content r := by
  obtain ⟨old, hold, hresult⟩ := List.mem_map.mp hr
  -- the stamp that is read for the same input now
  obtain ⟨new, hnew, hmatch⟩ :=
    exists_mem_of_forall₂ (Stamp.sameList_iff.mp (Stamp.sameList_symm hsame)) hold
  simp only [Stamp.same, Bool.and_eq_true, beq_iff_eq, hresult] at hmatch
  have hnow : h.world.heap.version r = old.version := by
    have hstamp := congrArg Stamp.version (hpresent new hnew)
    rw [eq_of_sameResult_mutable hmatch.1, hmatch.2] at hstamp
    exact hstamp.symm
  have hsampled := htraced.stamps old hold
  have hindex : r.index < before.heap.cells.size := hsampled.below _ hresult
  have htaken := hsampled.version r hresult
  have heffects := htraced.effects.version r
  have hlater := htraced.later.version r
  have hsize := htraced.effects.size
  refine ⟨hindex, by omega, ?_⟩
  rw [htraced.later.content r (by omega) (by omega), htraced.effects.content r hindex (by omega)]

/-- What running the rule of a variable once more would come to: it reads the graph as it is, returns what
is kept, and sets no mutable to anything new. -/
structure UpToDate (g : Graph σ) (slot : Slot) (v : Variable σ) (stamps : List Stamp) (cache : Cache) :
    Prop where
  reads : readInputs (Graph.evaluateWithin g.vars.size [slot]) v g = (stamps, g)
  kept : v.cache = some cache
  result : sameResult (g.run v.rule stamps).1 cache.result = true
  heap : (g.run v.rule stamps).2.world.heap = g.world.heap

/-- A variable whose evaluation changes nothing is up to date, unless it makes a mutable. -/
theorem Dated.upToDate {g : Graph σ} (hg : g.Dated) {slot : Slot} {v : Variable σ}
    (hv : g.vars.get? slot = some v) (hquiet : (g.evaluate slot).2 = g)
    (hwrapper : v.rule ≠ .define .mutableWrapper) :
    ∃ stamps cache, g.UpToDate slot v stamps cache := by
  have hnil := hg.kept.sound.unvisited_nil_le
  have hlt := unvisited_cons_lt (List.not_mem_nil (a := slot)) hv
  obtain ⟨depth, hdepth⟩ : ∃ depth, g.vars.size = depth + 1 := ⟨g.vars.size - 1, by omega⟩
  rw [evaluate, hdepth] at hquiet
  obtain ⟨hsame, cache, hcache, hstamps, -⟩ := evaluateWithin_quiet List.not_mem_nil hv hquiet
  have hreads : readInputs (Graph.evaluateWithin g.vars.size [slot]) v g =
      Graph.readEach (Graph.evaluateWithin depth [slot]) v.reads g := by
    rw [readInputs_eq]
    refine (readEach_congr (P := g.Shrinks) (fun read _ h hh next _ => ?_) (shrinks_refl g)).1
    have hle := hh.unvisited_le [slot]
    exact ⟨evaluateWithin_depth (by omega) (by omega) next,
      hh.trans (shrinks_evaluateWithin g.vars.size [slot] next h)⟩
  have hlocal : v.rule.Satisfies (Body.Local g.world.heap.cells.size) := by
    intro body hbody
    rcases hg.kept.rules hv body hbody with rfl | hlocal
    · exact absurd hbody hwrapper
    · exact hlocal
  have hlasting : v.rule.Satisfies Body.Lasting :=
    fun body hbody => (hg.kept.rules hv body hbody).lasting
  have hcount := evaluateWithin_counted (σ := σ) depth [slot]
  have hpresent := stampOf_of_quiet ((readEach_snd_eq_iff hcount v.reads g).mp hsame)
  obtain ⟨before, htraced⟩ := hg.caches hv hcache
  have hrerun := Rule.rerun hlocal (Stamp.sameList_results hstamps)
    fun r hr => settled_of_traced htraced hstamps hpresent hr
  refine ⟨_, cache, hreads.trans (Prod.ext rfl hsame), hcache, ?_, ?_⟩
  · rw [run_of_lasting hlasting, htraced.result]
    exact hrerun.1
  · rw [run_of_lasting hlasting]
    exact hrerun.2

/-! ## Runs of acts -/

theorem Dated.settle {g : Graph σ} (hg : g.Dated) : g.settle.2.Dated :=
  settleWithin_invariant (fun depth path slot hh => (hh.evaluateWithin depth path slot).dated)
    g.maxPasses hg

/-- Every edit keeps the invariant, if it brings in no other bodies. -/
theorem Dated.edit {g : Graph σ} (hg : g.Dated) {edit : Edit σ} (hvalid : edit.Valid g)
    (hbody : edit.Satisfies (Body.Tame g.world.heap.cells.size)) : (edit.apply g).Dated := by
  have hedited := (closed_edited fun _ _ => hg.kept.rules).apply hg.kept.edited edit hvalid hbody
  have hkept := hg.kept.of_edited hedited
  rw [← hedited.world] at hkept
  refine ⟨hkept, hedited.world ▸ hg.heap, fun {slot w cache} hw hcache => ?_⟩
  rw [hedited.world]
  rcases hedited.vars slot w hw with hold | hnew
  · exact hg.caches hold hcache
  · rw [hnew.2] at hcache
    cases hcache

theorem Dated.op {g : Graph σ} (hg : g.Dated) {op : Op σ} (hvalid : op.Valid g)
    (hbody : op.Satisfies (Body.Tame g.world.heap.cells.size)) : (op.apply g).Dated := by
  cases op with
  | edit edit => exact hg.edit hvalid hbody
  | settle => exact hg.settle
  | value m name =>
      exact value_invariant (fun depth path slot hh => (hh.evaluateWithin depth path slot).dated)
        m name hg

theorem Dated.assign {g : Graph σ} (hg : g.Dated) {r : Ref} {value : Value}
    (hvalid : (Act.assign r value).Valid g) : ((Act.assign r value).apply g).Dated := by
  have hgrows := g.world.heap.grows_assign r value
  refine ⟨⟨hg.kept.sound.congr rfl rfl, fun hv body hbody => ?_, hg.kept.caches⟩,
    hg.heap.assign r hvalid.2, fun {slot v cache} hv hcache => ?_⟩
  · exact (hg.kept.rules hv body hbody).mono hgrows.size
  · obtain ⟨before, htraced⟩ := hg.caches hv hcache
    exact ⟨before, htraced.grows hgrows⟩

/-- After every run of acts whose bodies are tame when they are brought in, what is kept can be traced. -/
theorem Dated.applyAll {g : Graph σ} (hg : g.Dated) {acts : List (Act σ)} (hvalid : Act.ValidAll g acts)
    (hbodies : Act.SatisfiesAll (fun g => Body.Tame g.world.heap.cells.size) g acts) :
    (Act.applyAll g acts).Dated := by
  induction acts generalizing g with
  | nil => exact hg
  | cons act acts ih =>
      refine ih ?_ hvalid.2 hbodies.2
      cases act with
      | op op => exact hg.op hvalid.1 hbodies.1
      | assign r value => exact hg.assign hvalid.1

/-- Settled means that nothing is out of date. After every run of acts whose bodies make mutables or are
local, if settling succeeds, every observed or anonymous variable that makes no mutable keeps a result that
running its rule once more, on what its inputs are now, would return again, and that would change neither
the content nor the version of any mutable. To settle again takes one pass, succeeds and leaves the whole
graph as it is. -/
theorem settled_up_to_date (world : World σ) (maxPasses : Nat) (hheap : world.heap.Grounded)
    (acts : List (Act σ)) (hvalid : Act.ValidAll { world, maxPasses } acts)
    (hbodies : Act.SatisfiesAll (fun g => Body.Tame g.world.heap.cells.size) { world, maxPasses } acts) :
    let g := Act.applyAll { world, maxPasses } acts
    ∀ h, g.settle = (.ok (), h) →
      (∀ slot v, h.vars.get? slot = some v → isRoot v = true → v.rule ≠ .define .mutableWrapper →
        ∃ stamps cache, h.UpToDate slot v stamps cache) ∧
      h.settle = (.ok (), h) ∧ settleWithin 1 h = (.ok (), h) := by
  intro g h hsettle
  have hstart : ({ world, maxPasses } : Graph σ).Dated := by
    refine ⟨kept_applyAll world maxPasses [] trivial (by simp), hheap, fun {slot v cache} hv => ?_⟩
    simp [Slots.get?] at hv
  have hok : g.settle.1 = .ok () := by rw [hsettle]
  obtain rfl : g.settle.2 = h := by rw [hsettle]
  have hsettled : g.settle.2.Dated := (hstart.applyAll hvalid hbodies).settle
  have hpass : g.settle.2.pass = g.settle.2 := pass_of_settleWithin hok
  have hpasses : 0 < g.settle.2.maxPasses := by
    rw [maxPasses_settle]
    exact maxPasses_pos_of_settle hok
  refine ⟨fun slot v hv hroot hwrapper => ?_, settleWithin_of_pass_eq hpass hpasses,
    settleWithin_of_pass_eq hpass Nat.one_pos⟩
  have hquiet := (evaluateAll_eq_iff g.settle.2.roots g.settle.2).mp hpass slot (mem_roots.mpr ⟨v, hv, hroot⟩)
  exact hsettled.upToDate hv hquiet hwrapper

/-- A mutable of the host that an anonymous variable sets, after the host has, and a mutable that the graph
makes. -/
theorem settled_up_to_date_setter :
    let world : World Unit := { heap := { cells := #[{ content := .undefined, version := 0 }] }, host := () }
    let start : Graph Unit := { world, maxPasses := 4 }
    let acts : List (Act Unit) := [.op (.edit .newModule), .op (.edit (.newVariable ⟨0⟩ none)),
      .op (.edit (.define ⟨0, 0⟩ (some "cell") [] (.constant (.mutable ⟨0⟩)))),
      .assign ⟨0⟩ (.data (.bool false)), .op (.edit (.newVariable ⟨0⟩ none)),
      .op (.edit (.define ⟨1, 0⟩ none ["cell"] (.setting (.bool true)))),
      .op (.edit (.newVariable ⟨0⟩ (some "watch"))),
      .op (.edit (.define ⟨2, 0⟩ (some "other") ["Mutable", "shown"] .mutableWrapper)),
      .op (.edit (.newVariable ⟨0⟩ none)),
      .op (.edit (.define ⟨3, 0⟩ (some "shown") ["cell"] .mutableValue))]
    let g := Act.applyAll start acts
    world.heap.Grounded ∧ Act.ValidAll start acts ∧
      Act.SatisfiesAll (fun g => Body.Tame g.world.heap.cells.size) start acts ∧
      ∃ h v, g.settle = (.ok (), h) ∧ h.vars.get? ⟨1, 0⟩ = some v ∧ isRoot v = true ∧
        v.rule ≠ .define .mutableWrapper ∧ (∃ stamps cache, h.UpToDate ⟨1, 0⟩ v stamps cache) ∧
        h.settle = (.ok (), h) := by
  intro world start acts g
  have hheap : world.heap.Grounded := by
    intro r
    cases hcell : world.heap.cells[r.index]? with
    | none =>
        simp only [Heap.content, hcell]
        trivial
    | some cell =>
        have hmem : cell ∈ world.heap.cells := Array.mem_of_getElem? hcell
        simp only [world, List.mem_toArray, List.mem_singleton] at hmem
        simp only [Heap.content, hcell, hmem]
        trivial
  have hvalid : Act.ValidAll start acts := by decide +kernel
  have hbodies : Act.SatisfiesAll (fun g => Body.Tame g.world.heap.cells.size) start acts :=
    ⟨trivial, trivial, Or.inr (Body.local_constant Nat.zero_lt_one), trivial, trivial,
      Or.inr (Body.local_setting _ _), trivial, Or.inl rfl, trivial, Or.inr (Body.local_mutableValue _),
      trivial⟩
  have hok : g.settle.1 = .ok () := by decide +kernel
  have hlive : (g.settle.2.vars.get? ⟨1, 0⟩).isSome = true := by decide +kernel
  have hshrinks := shrinks_settle g ⟨1, 0⟩
  rcases hsettle : g.settle with ⟨outcome, h⟩
  rw [hsettle] at hok hlive hshrinks
  obtain rfl : outcome = .ok () := hok
  obtain ⟨v, hv⟩ := Option.isSome_iff_exists.mp hlive
  have hvars : g.vars.toList = [
      (⟨0, 0⟩, { home := ⟨0⟩, name := some "cell", rule := .define (.constant (.mutable ⟨0⟩)) }),
      (⟨1, 0⟩, { home := ⟨0⟩, inputs := ["cell"], rule := .define (.setting (.bool true)) }),
      (⟨2, 0⟩, { home := ⟨0⟩, observer := some "watch", name := some "other", inputs := ["Mutable", "shown"],
                 rule := .define .mutableWrapper }),
      (⟨3, 0⟩, { home := ⟨0⟩, name := some "shown", inputs := ["cell"], rule := .define .mutableValue })] := by
    refine Act.Declares.toList_vars_start ?_ world 4 hvalid
    repeat constructor
  have hvar : g.vars.get? ⟨1, 0⟩ =
      some { home := ⟨0⟩, inputs := ["cell"], rule := .define (.setting (.bool true)) } :=
    Slots.mem_toList.mp (by simp [hvars])
  obtain ⟨u, hu, hvu⟩ := hshrinks v hv
  rw [hvar] at hu
  cases hu
  have hroot : isRoot v = true := Variable.isRoot_eq_of_bare_eq hvu
  have hwrapper : v.rule ≠ .define .mutableWrapper := by
    rw [Variable.rule_eq_of_bare_eq hvu]
    intro hrule
    -- given nothing, the one has a value and the other has not
    have hbody := Rule.define.inj hrule
    have hresult := congrArg (fun body => (body [] world).result) hbody
    cases hresult
  obtain ⟨huptodate, hagain, -⟩ := settled_up_to_date world 4 hheap acts hvalid hbodies h hsettle
  exact ⟨hheap, hvalid, hbodies, h, v, rfl, hv, hroot, hwrapper,
    huptodate ⟨1, 0⟩ v hv hroot hwrapper, hagain⟩

end Graph

end CellGraph
