import CellGraph.Proofs.Graph.Cycles
import CellGraph.Proofs.Graph.Declarations
import CellGraph.Proofs.Graph.Nesting
import CellGraph.Proofs.Graph.Rest
import CellGraph.Proofs.Mutables

/-!
# Reads that can be repeated

The first read of a name settles the graph and may then run bodies, which keep new results beside those
that the roots rely on. The graph may have faults and cycles anywhere, and its roots may set mutables and
delete variables. Still a second read finds nothing to do.

A read that has a value has met no fault, hence no cycle (`Kept.stamps_ok_of_conclude`). So it comes to
roots only where they are at rest (`atRest_of_quiet`), and no root is run. The other bodies set no mutable
and delete nothing, so each variable that is run comes to rest without disturbing any other
(`Quiescent.evaluateWithin`). What has changed was not at rest before, so no evaluation of a root can have
relied on it (`Undisturbed.evaluateWithin_eq`).
-/

namespace CellGraph.Graph

variable {σ : Type}

/-- Where no cycle can be reached, an evaluation that changes nothing finds its variable at rest. -/
theorem atRest_of_quiet {g : Graph σ} {path : List Slot} {slot : Slot} {depth : Nat}
    (hacyclic : g.AcyclicFrom slot) (htrail : g.Trail path slot) (hdepth : g.unvisited path ≤ depth)
    (hquiet : (evaluateWithin depth path slot g).2 = g) :
    g.AtRest slot ∧ evaluateWithin depth path slot g = (g.keptResult slot, g) := by
  -- by induction on the depth, which is enough for all that can be reached
  suffices hrest : g.AtRest slot from ⟨hrest, hrest.evaluateWithin htrail hdepth⟩
  induction depth generalizing path slot with
  | zero =>
      cases hv : g.vars.get? slot with
      | none => exact .gone hv
      | some v =>
          have hlt := unvisited_cons_lt (hacyclic.not_mem htrail) hv
          omega
  | succ depth ih =>
      cases hv : g.vars.get? slot with
      | none => exact .gone hv
      | some v =>
          have hmem := hacyclic.not_mem htrail
          have hlt := unvisited_cons_lt hmem hv
          obtain ⟨hsame, cache, hcache, hstamps, -⟩ := evaluateWithin_quiet hmem hv hquiet
          have hreads : ∀ read ∈ v.reads, ∀ next, g.lookup read.1 read.2 = some next →
              g.AtRest next := by
            intro read hread next hlookup
            have hnext : g.DependsOn slot next := ⟨v, read, hv, hread, hlookup⟩
            have hcount := evaluateWithin_counted (σ := σ) depth (slot :: path)
            exact ih (hacyclic.of_reachable (.single hnext)) (htrail.cons hnext) (by omega)
              ((readEach_snd_eq_iff hcount v.reads g).mp hsame read hread next hlookup)
          have hkept : readEach (evaluateWithin depth (slot :: path)) v.reads g =
              (g.keptStamps v.reads, g) := by
            refine readEach_eq_keptStamps fun read hread next hlookup => ?_
            have hnext : g.DependsOn slot next := ⟨v, read, hv, hread, hlookup⟩
            exact (hreads read hread next hlookup).evaluateWithin (htrail.cons hnext) (by omega)
          rw [hkept] at hstamps
          exact .kept hv hcache hstamps hreads

/-! ## Evaluations in a settled graph -/

/-- A graph that has settled, in which only roots may set mutables or delete variables. -/
structure Quiescent (g : Graph σ) : Prop where
  intact : g.Intact
  pass : g.pass = g
  others : ∀ {slot : Slot} {v : Variable σ}, g.vars.get? slot = some v → isRoot v = false →
    v.rule.Satisfies Body.Quiet

/-- What an evaluation may lead to: no mutable has been set, nothing that was at rest has changed, and what
has changed depends on no cycle. -/
structure Undisturbed (g h : Graph σ) : Prop where
  kept : h.Kept fun _ => True
  leaves : g.Leaves h
  changed : ∀ {slot : Slot}, h.vars.get? slot ≠ g.vars.get? slot → g.AcyclicFrom slot

theorem Quiescent.undisturbed {g : Graph σ} (hg : g.Quiescent) : g.Undisturbed g :=
  ⟨hg.intact.kept, leaves_refl g, fun hne => absurd rfl hne⟩

theorem Quiescent.fits {g h : Graph σ} (hg : g.Quiescent) (hh : g.Undisturbed h) (slot : Slot)
    (w : Variable σ) (hw : h.vars.get? slot = some w) : w.rule.Fits g w.inputs := by
  obtain ⟨v, hv, hwv⟩ := hh.leaves.alike.shrinks slot w hw
  have hinputs : w.bare.inputs = v.bare.inputs := by rw [hwv]
  have hfits := hg.intact.wired slot v hv
  rwa [← Variable.rule_eq_of_bare_eq hwv, ← show w.inputs = v.inputs from hinputs] at hfits

/-- A root that depends on no cycle is at rest. -/
theorem Quiescent.atRest {g : Graph σ} (hg : g.Quiescent) {slot : Slot} (hroot : slot ∈ g.roots)
    (hacyclic : g.AcyclicFrom slot) : g.AtRest slot := by
  have hquiet : (g.evaluate slot).2 = g := (evaluateAll_eq_iff g.roots g).mp hg.pass slot hroot
  exact (atRest_of_quiet hacyclic (g.trail_nil slot) hg.intact.kept.sound.unvisited_nil_le hquiet).1

/-- A conclusion whose stamps are those kept for inputs at rest brings the variable to rest and disturbs
nothing: a root is at rest already, and anything else sets no mutable and deletes nothing. -/
theorem Quiescent.conclude {g h : Graph σ} (hg : g.Quiescent) (hh : g.Undisturbed h) {slot : Slot}
    {v : Variable σ} (hv : h.vars.get? slot = some v)
    (hinputs : ∀ read ∈ v.reads, ∀ next, h.lookup read.1 read.2 = some next → h.AtRest next) :
    g.Undisturbed (h.conclude slot v.rule (h.keptStamps v.reads)).2 ∧
      h.Rests slot (h.conclude slot v.rule (h.keptStamps v.reads)) := by
  have hacyclic : g.AcyclicFrom slot := by
    unfold AcyclicFrom
    rw [← hh.leaves.alike.dependsOn]
    refine acyclicFrom_of_next fun next hnext => ?_
    obtain ⟨w, read, hw, hread, hlookup⟩ := hnext
    rw [hv] at hw
    cases hw
    exact (hinputs read hread next hlookup).acyclicFrom
  have hkept : (h.conclude slot v.rule (h.keptStamps v.reads)).2.Kept fun _ => True := by
    refine hh.kept.conclude _ fun w hw => ?_
    rw [hv] at hw
    cases hw
    rfl
  by_cases hroot : slot ∈ h.roots
  · -- a root is at rest since the graph has settled, so it keeps what belongs to these stamps
    rw [hh.leaves.alike.roots] at hroot
    have hrest := (hh.leaves.rest (hg.atRest hroot hacyclic)).1
    have hhit : h.conclude slot v.rule (h.keptStamps v.reads) = (h.keptResult slot, h) := by
      cases hrest with
      | gone hdead =>
          rw [hv] at hdead
          cases hdead
      | kept hw hcache hsame _ =>
          rw [hv] at hw
          cases hw
          rw [keptResult_of_cache hv hcache]
          exact conclude_hit (cached?_eq_some_iff.mpr ⟨v, _, hv, hcache, hsame, rfl⟩) v.rule
    rw [hhit]
    exact ⟨hh, leaves_refl h, hrest, rfl⟩
  · have hquiet : v.rule.Satisfies Body.Quiet := by
      obtain ⟨u, hu, hvu⟩ := hh.leaves.alike.shrinks slot v hv
      have hother : isRoot v = false := by
        rw [mem_roots] at hroot
        by_contra hv'
        exact hroot ⟨v, hv, by simpa using hv'⟩
      rw [Variable.rule_eq_of_bare_eq hvu]
      exact hg.others hu ((Variable.isRoot_eq_of_bare_eq hvu).symm.trans hother)
    have hlasting : v.rule.Satisfies Body.Lasting := fun body hbody => (hquiet body hbody).lasting
    have hrests := rests_conclude (leaves_refl h) hv hlasting hinputs (versionOf_conclude hv hquiet _)
    refine ⟨⟨hkept, hh.leaves.trans hrests.leaves, fun {other} hne => ?_⟩, hrests⟩
    by_cases hother : other = slot
    · rw [hother]
      exact hacyclic
    · rw [get?_conclude_of_ne hv hlasting _ hother] at hne
      exact hh.changed hne

/-- An evaluation that has a value brings its variable to rest and disturbs nothing. -/
theorem Quiescent.evaluateWithin {g h : Graph σ} (hg : g.Quiescent) (hh : g.Undisturbed h)
    {path : List Slot} {slot : Slot} {depth : Nat} (htrail : g.Trail path slot) {value : Value}
    (hok : (Graph.evaluateWithin depth path slot h).1 = .ok value) :
    g.Undisturbed (Graph.evaluateWithin depth path slot h).2 ∧
      h.Rests slot (Graph.evaluateWithin depth path slot h) := by
  induction depth generalizing path slot h value with
  | zero =>
      obtain ⟨rest, -, hrest, -⟩ := hh.kept.stamps_ok_of_evaluateWithin hok (hg.fits hh slot)
      cases hrest
  | succ depth ih =>
      obtain ⟨rest, w, hrest, hmem, hw, hall⟩ :=
        hh.kept.stamps_ok_of_evaluateWithin hok (hg.fits hh slot)
      obtain rfl : depth = rest := Nat.succ.inj hrest
      have hreads : g.Undisturbed (readEach (Graph.evaluateWithin depth (slot :: path)) w.reads h).2 ∧
          h.Leaves (readEach (Graph.evaluateWithin depth (slot :: path)) w.reads h).2 ∧
          (readEach (Graph.evaluateWithin depth (slot :: path)) w.reads h).1 =
            (readEach (Graph.evaluateWithin depth (slot :: path)) w.reads h).2.keptStamps w.reads ∧
          ∀ read ∈ w.reads, ∀ next, h.lookup read.1 read.2 = some next →
            (readEach (Graph.evaluateWithin depth (slot :: path)) w.reads h).2.AtRest next := by
        refine readEach_rests (T := fun result => ∃ value, result = .ok value) ?_ hh (alike_refl h) hall
        rintro read hread next hlookup k hk - ⟨x, hx⟩
        have hnext : g.DependsOn slot next :=
          hh.leaves.alike.dependsOn ▸ ⟨w, read, hw, hread, hlookup⟩
        exact ih hk (htrail.cons hnext) hx
      obtain ⟨hmid, hleaves, hstamps, hatRest⟩ := hreads
      obtain ⟨u, hu, huw⟩ := hleaves.alike.exists_of_get? hw
      rw [evaluateWithin_succ hmem hw, hstamps, ← Variable.reads_eq_of_bare_eq huw,
        ← Variable.rule_eq_of_bare_eq huw]
      rw [← Variable.reads_eq_of_bare_eq huw] at hmid hleaves hatRest hu
      obtain ⟨hdone, hrests⟩ := hg.conclude hmid hu fun read hread next hlookup => by
        rw [hleaves.alike.lookup] at hlookup
        exact hatRest read hread next hlookup
      exact ⟨hdone, hleaves.trans hrests.leaves, hrests.rest, hrests.result⟩

/-! ## Evaluations of the roots -/

/-- Where evaluations change nothing in one graph and return the same in another, without changing that
either, the same is read in both. -/
theorem readEach_eq_of_quiet {g h : Graph σ} (halike : g.Alike h) (hversion : h.versionOf = g.versionOf)
    {eval : Evaluator σ} {reads : List (ModuleId × String)}
    (heval : ∀ read ∈ reads, ∀ next, g.lookup read.1 read.2 = some next →
      (eval next g).2 = g ∧ eval next h = ((eval next g).1, h)) :
    readEach eval reads h = ((readEach eval reads g).1, h) := by
  induction reads with
  | nil => rfl
  | cons first reads ih =>
      rw [List.forall_mem_cons] at heval
      have hread : (read eval first.1 first.2 g).2 = g ∧
          read eval first.1 first.2 h = ((read eval first.1 first.2 g).1, h) := by
        unfold read
        rw [halike.lookup]
        cases hlookup : g.lookup first.1 first.2 with
        | none => exact ⟨rfl, rfl⟩
        | some next =>
            obtain ⟨hsame, heq⟩ := heval.1 next hlookup
            simp only [heq, hsame, hversion, and_self]
      simp only [readEach, hread.1, hread.2, ih heval.2]

/-- An evaluation that changes nothing in a settled graph returns the same and changes nothing in the graph
that another evaluation has led to. -/
theorem Undisturbed.evaluateWithin_eq {g h : Graph σ} (hh : g.Undisturbed h) {path : List Slot}
    {depth : Nat} (hdepth : g.unvisited path ≤ depth) {slot : Slot} (htrail : g.Trail path slot)
    (hquiet : (Graph.evaluateWithin depth path slot g).2 = g) :
    Graph.evaluateWithin depth path slot h = ((Graph.evaluateWithin depth path slot g).1, h) := by
  have halike := hh.leaves.alike
  induction depth generalizing path slot with
  | zero =>
      refine halike.evaluateWithin_blocked ?_ 0
      by_contra hfree
      obtain ⟨hmem, v, hv⟩ := exists_of_not_blocked hfree
      have hlt := unvisited_cons_lt hmem hv
      omega
  | succ depth ih =>
      by_cases hblocked : slot ∈ path ∨ g.vars.get? slot = none
      · exact halike.evaluateWithin_blocked hblocked (depth + 1)
      obtain ⟨hmem, v, hv⟩ := exists_of_not_blocked hblocked
      have hlt := unvisited_cons_lt hmem hv
      -- had the variable changed, it would depend on no cycle, hence have been at rest
      have hget : h.vars.get? slot = g.vars.get? slot := by
        by_contra hne
        have hrest := (atRest_of_quiet (hh.changed hne) htrail hdepth hquiet).1
        exact hne (hh.leaves.rest hrest).2
      obtain ⟨hsame, cache, hcache, hstamps, hresult⟩ := evaluateWithin_quiet hmem hv hquiet
      have hreads : readEach (Graph.evaluateWithin depth (slot :: path)) v.reads h =
          ((readEach (Graph.evaluateWithin depth (slot :: path)) v.reads g).1, h) := by
        refine readEach_eq_of_quiet halike hh.leaves.version fun read hread next hlookup => ?_
        have hcount := evaluateWithin_counted (σ := σ) depth (slot :: path)
        have hnext := (readEach_snd_eq_iff hcount v.reads g).mp hsame read hread next hlookup
        exact ⟨hnext, ih (by omega) (htrail.cons ⟨v, read, hv, hread, hlookup⟩) hnext⟩
      rw [evaluateWithin_succ hmem (hget.trans hv), hreads, hresult]
      exact conclude_hit (cached?_eq_some_iff.mpr
        ⟨v, cache, hget.trans hv, hcache, hstamps, rfl⟩) v.rule

/-- So a pass changes nothing in that graph. -/
theorem Quiescent.pass_eq {g h : Graph σ} (hg : g.Quiescent) (hh : g.Undisturbed h) : h.pass = h := by
  refine (evaluateAll_eq_iff h.roots h).mpr fun root hroot => ?_
  rw [hh.leaves.alike.roots] at hroot
  have hquiet : (g.evaluate root).2 = g := (evaluateAll_eq_iff g.roots g).mp hg.pass root hroot
  have hnil := hg.intact.kept.sound.unvisited_nil_le
  have hdepth : h.evaluate root = Graph.evaluateWithin g.vars.size [] root h := by
    refine evaluateWithin_depth hh.kept.sound.unvisited_nil_le ?_ root
    rw [hh.leaves.alike.unvisited]
    exact hnil
  rw [hdepth, hh.evaluateWithin_eq hnil (g.trail_nil root) hquiet]

/-! ## Reading a value twice -/

/-- What holds of the rules of all variables but the observed and the anonymous ones still holds when variables
have disappeared. -/
theorem Shrinks.others {Q : Body σ → Prop} {g h : Graph σ} (hgh : g.Shrinks h)
    (hg : ∀ slot v, g.vars.get? slot = some v → isRoot v = false → v.rule.Satisfies Q) :
    ∀ slot w, h.vars.get? slot = some w → isRoot w = false → w.rule.Satisfies Q := by
  intro slot w hw hother
  obtain ⟨v, hv, hwv⟩ := hgh slot w hw
  rw [Variable.rule_eq_of_bare_eq hwv]
  exact hg slot v hv ((Variable.isRoot_eq_of_bare_eq hwv).symm.trans hother)

/-- A graph that settles is quiescent if only its roots may set mutables or delete variables. -/
theorem Intact.quiescent {g : Graph σ} (hg : g.Intact) (hok : g.settle.1 = .ok ())
    (hothers : ∀ slot v, g.vars.get? slot = some v → isRoot v = false →
      v.rule.Satisfies Body.Quiet) : g.settle.2.Quiescent where
  intact := hg.settle
  pass := pass_of_settleWithin hok
  others {slot w} hw hother := (shrinks_settle g).others hothers slot w hw hother

/-- Reads can be repeated. After every run of acts that leads to a graph in which only observed and anonymous
variables have bodies that set mutables or delete variables, a name that has a value has the very same
value when it is read again at once, and the second read leaves the whole graph as it is: it runs no rule,
tells no observer, and changes no name, no rule, nothing that is kept and no mutable. There may be faults
and cycles elsewhere. -/
theorem value_repeats (world : World σ) (maxPasses : Nat) (acts : List (Act σ))
    (hvalid : Act.ValidAll { world, maxPasses } acts) :
    let g := Act.applyAll { world, maxPasses } acts
    (∀ slot v, g.vars.get? slot = some v → isRoot v = false → v.rule.Satisfies Body.Quiet) →
      ∀ m name value, (g.value m name).1 = .ok value →
        (g.value m name).2.value m name = (.ok value, (g.value m name).2) := by
  intro g hothers m name value hvalue
  obtain ⟨hok, slot, hlookup, hread⟩ := exists_of_value_ok hvalue
  have hg : g.settle.2.Quiescent := (intact_applyAll world maxPasses acts hvalid).quiescent hok hothers
  rw [hread] at hvalue ⊢
  obtain ⟨hdone, hrests⟩ := hg.evaluateWithin hg.undisturbed (g.settle.2.trail_nil slot) hvalue
  change g.settle.2.Undisturbed (g.settle.2.evaluate slot).2 at hdone
  change g.settle.2.Rests slot (g.settle.2.evaluate slot) at hrests
  -- the second read settles at once, and finds the variable at rest
  have hpasses : 0 < (g.settle.2.evaluate slot).2.maxPasses := by
    rw [hdone.leaves.alike.maxPasses, maxPasses_settle]
    exact maxPasses_pos_of_settle hok
  have hsettle : (g.settle.2.evaluate slot).2.settle = (.ok (), (g.settle.2.evaluate slot).2) :=
    settleWithin_of_pass_eq (hg.pass_eq hdone) hpasses
  have hagain : (g.settle.2.evaluate slot).2.value m name =
      (g.settle.2.evaluate slot).2.settle.2.evaluate slot := by
    refine value_of_settle (by rw [hsettle]) ?_
    rw [hsettle, hdone.leaves.alike.lookup]
    exact hlookup
  rw [hagain, hsettle, hrests.rest.evaluate hdone.kept.sound, ← hrests.result, hvalue]

/-- A mutable that one anonymous variable sets, a variable that another one deletes, and an import of
itself. -/
theorem value_repeats_after_effects :
    let start : Graph Unit := { world := { host := () }, maxPasses := 4 }
    let deleting : Body Unit :=
      fun _ world => { result := .ok .undefined, world, deleted := [⟨4, 0⟩] }
    let acts : List (Act Unit) := [.op (.edit .newModule),
      .op (.edit (.newVariable ⟨0⟩ none)),
      .op (.edit (.define ⟨0, 0⟩ (some "zero") [] (.constant (.data .null)))),
      .op (.edit (.newVariable ⟨0⟩ none)),
      .op (.edit (.define ⟨1, 0⟩ (some "cell") ["Mutable", "zero"] .mutableWrapper)),
      .op (.edit (.newVariable ⟨0⟩ none)), .op (.edit (.define ⟨2, 0⟩ (some "shown") ["cell"] .mutableValue)),
      .op (.edit (.newVariable ⟨0⟩ none)), .op (.edit (.importing ⟨3, 0⟩ "loop" "loop" ⟨0⟩)),
      .op (.edit (.newVariable ⟨0⟩ none)),
      .op (.edit (.newVariable ⟨0⟩ none)), .op (.edit (.define ⟨5, 0⟩ none ["cell"] (.setting (.bool true)))),
      .op (.edit (.newVariable ⟨0⟩ none)), .op (.edit (.define ⟨6, 0⟩ none [] deleting))]
    let g := Act.applyAll start acts
    Act.ValidAll start acts ∧
      (∀ slot v, g.vars.get? slot = some v → isRoot v = false → v.rule.Satisfies Body.Quiet) ∧
      ∃ value, (g.value ⟨0⟩ "shown").1 = .ok value ∧
        (g.value ⟨0⟩ "shown").2.value ⟨0⟩ "shown" = (.ok value, (g.value ⟨0⟩ "shown").2) := by
  intro start deleting acts g
  have hvalid : Act.ValidAll start acts := by decide +kernel
  have hvars : g.vars.toList = [
      (⟨0, 0⟩, { home := ⟨0⟩, name := some "zero", rule := .define (.constant (.data .null)) }),
      (⟨1, 0⟩, { home := ⟨0⟩, name := some "cell", inputs := ["Mutable", "zero"],
                 rule := .define .mutableWrapper }),
      (⟨2, 0⟩, { home := ⟨0⟩, name := some "shown", inputs := ["cell"], rule := .define .mutableValue }),
      (⟨3, 0⟩, { home := ⟨0⟩, name := some "loop", rule := .importing "loop" ⟨0⟩ }),
      (⟨4, 0⟩, { home := ⟨0⟩ }),
      (⟨5, 0⟩, { home := ⟨0⟩, inputs := ["cell"], rule := .define (.setting (.bool true)) }),
      (⟨6, 0⟩, { home := ⟨0⟩, rule := .define deleting })] := by
    refine Act.Declares.toList_vars_start ?_ { host := () } 4 hvalid
    repeat constructor
  have hothers : ∀ slot v, g.vars.get? slot = some v → isRoot v = false →
      v.rule.Satisfies Body.Quiet := by
    suffices hall : ∀ place ∈ g.vars.toList, isRoot place.2 = false →
        place.2.rule.Satisfies Body.Quiet from
      fun slot v hv => hall (slot, v) (Slots.mem_toList.mpr hv)
    rw [hvars]
    simp only [List.forall_mem_cons, List.not_mem_nil, false_imp_iff, implies_true, and_true]
    refine ⟨fun _ body hbody => ?_, fun _ body hbody => ?_, fun _ body hbody => ?_,
      fun _ body hbody => ?_, fun hroot => ?_, fun hroot => ?_, fun hroot => ?_⟩
    · cases hbody
      exact (Body.functional_constant _).quiet
    · cases hbody
      exact Body.quiet_mutableWrapper
    · cases hbody
      exact Body.quiet_mutableValue
    · cases hbody
    · cases hroot
    · cases hroot
    · cases hroot
  have hread : sameResult (g.value ⟨0⟩ "shown").1 (.ok (.data (.bool true))) = true := by decide +kernel
  obtain ⟨value, hvalue⟩ := ok_of_sameResult (sameResult_symm hread) ⟨_, rfl⟩
  exact ⟨hvalid, hothers, value, hvalue,
    value_repeats { host := () } 4 acts hvalid hothers ⟨0⟩ "shown" value hvalue⟩

end CellGraph.Graph
