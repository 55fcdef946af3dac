import CellGraph.Proofs.Graph.Incremental

/-!
# The visits of an evaluation

To evaluate a variable is to visit the variables that it depends on, each on the path that led to it
(`Meets`). The same variable may be visited on several paths, and around a cycle what it reads depends
on the path: the circular fault names the variable at which the path closed.

A visit finds nothing to do where the variable keeps the stamps that it ought to read there (`Current`).
An evaluation leaves the graph as it is exactly where all of its visits find nothing to do
(`evaluateWithin_snd_eq_iff`), and what it visits is current afterwards on one of its paths
(`evaluateWithin_fresh`).
-/

namespace CellGraph.Graph

variable {σ : Type}

/-- The first variable reads a name that leads to the second. -/
def DependsOn (g : Graph σ) (slot next : Slot) : Prop :=
  ∃ v read, g.vars.get? slot = some v ∧ read ∈ v.reads ∧ g.lookup read.1 read.2 = some next

/-- Evaluating the first variable on the first path comes to the second variable on the second path. -/
inductive Meets (g : Graph σ) : List Slot → Slot → List Slot → Slot → Prop where
  | here {path : List Slot} {slot : Slot} {v : Variable σ} (hmem : slot ∉ path)
      (hv : g.vars.get? slot = some v) : Meets g path slot path slot
  | there {path path' : List Slot} {slot next slot' : Slot} (hmem : slot ∉ path)
      (hnext : g.DependsOn slot next) (hmeets : Meets g (slot :: path) next path' slot') :
      Meets g path slot path' slot'

/-- A visit begins at a variable that is there and not on its path. -/
theorem Meets.not_blocked {g : Graph σ} {path path' : List Slot} {slot slot' : Slot}
    (h : g.Meets path slot path' slot') : ¬ (slot ∈ path ∨ g.vars.get? slot = none) := by
  cases h with
  | here hmem hv => simp [hmem, hv]
  | there hmem hnext hmeets =>
      obtain ⟨v, read, hv, -⟩ := hnext
      simp [hmem, hv]

/-- Where every variable is on the path, there is nothing to visit. -/
theorem Meets.unvisited_pos {g : Graph σ} {path path' : List Slot} {slot slot' : Slot}
    (h : g.Meets path slot path' slot') : 0 < g.unvisited path := by
  obtain ⟨hmem, v, hv⟩ := exists_of_not_blocked h.not_blocked
  have hlt := unvisited_cons_lt hmem hv
  omega

/-- The visits of an evaluation are the first one and those of what the variable reads. -/
theorem Meets.cases_reads {g : Graph σ} {path path' : List Slot} {slot slot' : Slot} {v : Variable σ}
    (h : g.Meets path slot path' slot') (hv : g.vars.get? slot = some v) :
    (path' = path ∧ slot' = slot) ∨ ∃ read ∈ v.reads, ∃ next,
      g.lookup read.1 read.2 = some next ∧ g.Meets (slot :: path) next path' slot' := by
  cases h with
  | here _ _ => exact Or.inl ⟨rfl, rfl⟩
  | there _ hnext hmeets =>
      obtain ⟨w, read, hw, hread, hlookup⟩ := hnext
      obtain rfl : v = w := Option.some.inj (hv.symm.trans hw)
      exact Or.inr ⟨read, hread, _, hlookup, hmeets⟩

theorem Agree.dependsOn {g h : Graph σ} (hgh : g.Agree h) {slot next : Slot}
    (hnext : g.DependsOn slot next) : h.DependsOn slot next := by
  obtain ⟨v, read, hv, hread, hlookup⟩ := hnext
  obtain ⟨w, hw, hcore⟩ := hgh.exists_of_get? hv
  have hreads : w.core.reads = v.core.reads := by rw [hcore]
  refine ⟨w, read, hw, ?_, by rw [← hgh.lookup, hlookup]⟩
  change read ∈ w.core.reads
  rw [hreads]
  exact hread

theorem Agree.meets {g h : Graph σ} (hgh : g.Agree h) {path path' : List Slot} {slot slot' : Slot}
    (hmeets : g.Meets path slot path' slot') : h.Meets path slot path' slot' := by
  induction hmeets with
  | here hmem hv =>
      obtain ⟨w, hw, -⟩ := hgh.exists_of_get? hv
      exact .here hmem hw
  | there hmem hnext _ ih => exact .there hmem (hgh.dependsOn hnext) ih

/-- The variable keeps the stamps that it ought to read on the path. -/
def Current (g : Graph σ) (path : List Slot) (slot : Slot) : Prop :=
  ∃ v cache, g.vars.get? slot = some v ∧ v.cache = some cache ∧
    Stamp.sameList cache.stamps (g.stampsAt path slot) = true

/-! ## Evaluations that find nothing to do -/

/-- Reading leaves the graph as it is exactly where each evaluation in it does, provided that whatever
changes the graph is counted. -/
theorem readEach_snd_eq_iff {eval : Evaluator σ}
    (hcount : ∀ (slot : Slot) (g : Graph σ), g.Counted (eval slot g).2)
    (reads : List (ModuleId × String)) (g : Graph σ) :
    (readEach eval reads g).2 = g ↔
      ∀ read ∈ reads, ∀ next, g.lookup read.1 read.2 = some next → (eval next g).2 = g := by
  induction reads with
  | nil => simp [readEach]
  | cons first reads ih =>
      rw [List.forall_mem_cons, ← ih]
      have hfirst : (read eval first.1 first.2 g).2 = g ↔
          ∀ next, g.lookup first.1 first.2 = some next → (eval next g).2 = g := by
        unfold read
        cases g.lookup first.1 first.2 <;> simp
      rw [← hfirst]
      have hsplit : (readEach eval (first :: reads) g).2 =
          (readEach eval reads (read eval first.1 first.2 g).2).2 := rfl
      rw [hsplit]
      constructor
      · intro hsame
        have hthere : g.Counted (read eval first.1 first.2 g).2 := by
          unfold read
          split
          · exact hcount _ g
          · exact counted_refl g
        have hback := readEach_rel counted_refl Counted.trans hcount reads
          (read eval first.1 first.2 g).2
        rw [hsame] at hback
        have hkeep : (read eval first.1 first.2 g).2 = g := hthere.eq_of_back hback
        rw [hkeep] at hsame
        exact ⟨hkeep, hsame⟩
      · rintro ⟨hkeep, hsame⟩
        rw [hkeep, hsame]

/-- Where reading leaves the graph as it is, all versions are those of the graph. -/
theorem stampOf_of_quiet {eval : Evaluator σ} {reads : List (ModuleId × String)} {g : Graph σ}
    (heval : ∀ read ∈ reads, ∀ next, g.lookup read.1 read.2 = some next → (eval next g).2 = g) :
    ∀ stamp ∈ (readEach eval reads g).1, stamp = g.stampOf stamp.result := by
  induction reads with
  | nil => simp [readEach]
  | cons first reads ih =>
      rw [List.forall_mem_cons] at heval
      have hfirst : (read eval first.1 first.2 g).2 = g ∧
          (read eval first.1 first.2 g).1 = g.stampOf (read eval first.1 first.2 g).1.result := by
        unfold read
        cases hlookup : g.lookup first.1 first.2 with
        | none => simp [stampOf, versionOf_builtin]
        | some next => simp [stampOf, heval.1 next hlookup]
      simp only [readEach, List.forall_mem_cons]
      rw [hfirst.1]
      exact ⟨hfirst.2, ih heval.2⟩

/-- An evaluation that changes nothing, whatever the bodies, has changed nothing in reading either, and has
found what it returns. -/
theorem evaluateWithin_quiet {g : Graph σ} {path : List Slot} {slot : Slot} {depth : Nat}
    {v : Variable σ} (hmem : slot ∉ path) (hv : g.vars.get? slot = some v)
    (hquiet : (evaluateWithin (depth + 1) path slot g).2 = g) :
    (readEach (evaluateWithin depth (slot :: path)) v.reads g).2 = g ∧ ∃ cache, v.cache = some cache ∧
      Stamp.sameList cache.stamps (readEach (evaluateWithin depth (slot :: path)) v.reads g).1 = true ∧
      (evaluateWithin (depth + 1) path slot g).1 = cache.result := by
  rw [evaluateWithin_succ hmem hv] at hquiet ⊢
  have hthere : g.Counted (readEach (evaluateWithin depth (slot :: path)) v.reads g).2 :=
    readEach_rel counted_refl Counted.trans (evaluateWithin_counted depth (slot :: path)) v.reads g
  generalize readEach (evaluateWithin depth (slot :: path)) v.reads g = out at hquiet hthere ⊢
  have hback := conclude_counted out.2 slot v.rule out.1
  rw [hquiet] at hback
  have hsame : out.2 = g := hthere.eq_of_back hback
  refine ⟨hsame, ?_⟩
  cases hcached : out.2.cached? slot out.1 with
  | none =>
      have hlt := runs_lt_conclude hcached v.rule
      rw [hquiet, hsame] at hlt
      exact absurd hlt (Nat.lt_irrefl _)
  | some result =>
      rw [conclude_hit hcached]
      obtain ⟨w, cache, hw, hcache, hstamps, rfl⟩ := cached?_eq_some_iff.mp hcached
      rw [hsame, hv] at hw
      cases hw
      exact ⟨cache, hcache, hstamps, rfl⟩

/-- An evaluation leaves the graph as it is exactly where all of its visits find nothing to do. -/
theorem evaluateWithin_snd_eq_iff {g : Graph σ} (hg : g.Ready) {path : List Slot} {depth : Nat}
    (hdepth : g.unvisited path ≤ depth) (slot : Slot) :
    (evaluateWithin depth path slot g).2 = g ↔
      ∀ path' slot', g.Meets path slot path' slot' → g.Current path' slot' := by
  induction depth generalizing path slot with
  | zero =>
      rw [evaluateWithin_zero]
      refine iff_of_true rfl fun path' slot' hmeets => ?_
      have hpos := hmeets.unvisited_pos
      omega
  | succ depth ih =>
      by_cases hblocked : slot ∈ path ∨ g.vars.get? slot = none
      · rw [evaluateWithin_blocked (agree_of_bare_eq rfl) hblocked]
        exact iff_of_true rfl fun path' slot' hmeets => absurd hblocked hmeets.not_blocked
      · obtain ⟨hmem, v, hv⟩ := exists_of_not_blocked hblocked
        have hlt := unvisited_cons_lt hmem hv
        have hdepth' : g.unvisited (slot :: path) ≤ depth := by omega
        have hcount := evaluateWithin_counted (σ := σ) depth (slot :: path)
        have hquiet := readEach_snd_eq_iff hcount v.reads g
        have hthere := readEach_rel counted_refl Counted.trans hcount v.reads g
        obtain ⟨stamps, mid, hread, hstamps, -, -, heval, hconcluded⟩ :=
          (evaluateWithin_faithful hdepth').step hg rfl hmem hv
        rw [hread] at hquiet hthere
        rw [heval]
        constructor
        · intro hsame
          have hback := conclude_counted mid slot v.rule stamps
          rw [hsame] at hback
          obtain rfl : mid = g := hthere.eq_of_back hback
          intro path' slot' hmeets
          rcases hmeets.cases_reads hv with ⟨rfl, rfl⟩ | ⟨read, hread, next, hlookup, hbelow⟩
          · obtain ⟨w, cache, hw, hcache, hkept⟩ := hconcluded.kept
            rw [hsame] at hw
            exact ⟨w, cache, hw, hcache, Stamp.sameList_trans hkept hstamps⟩
          · exact (ih hdepth' next).mp (hquiet.mp rfl read hread next hlookup) path' slot' hbelow
        · intro hcurrent
          have hmid : mid = g := by
            refine hquiet.mpr fun read hread next hlookup => (ih hdepth' next).mpr ?_
            intro path' slot' hmeets
            exact hcurrent path' slot' (.there hmem ⟨v, read, hv, hread, hlookup⟩ hmeets)
          subst hmid
          obtain ⟨w, cache, hw, hcache, hkept⟩ := hcurrent path slot (.here hmem hv)
          have hhit : mid.cached? slot stamps = some cache.result := cached?_eq_some_iff.mpr
            ⟨w, cache, hw, hcache, Stamp.sameList_trans hkept (Stamp.sameList_symm hstamps), rfl⟩
          rw [conclude_hit hhit]

/-! ## What an evaluation brings up to date -/

/-- The variable is current on one of the paths that `Q` allows. -/
def Fresh (Q : List Slot → Slot → Prop) (g : Graph σ) (slot : Slot) : Prop :=
  ∃ path, Q path slot ∧ g.Current path slot

/-- A variable that nothing has happened to is as current as before. -/
theorem Fresh.of_get?_eq {Q : List Slot → Slot → Prop} {g h : Graph σ} {slot : Slot}
    (hbare : h.bare = g.bare) (hget : h.vars.get? slot = g.vars.get? slot) (hfresh : g.Fresh Q slot) :
    h.Fresh Q slot := by
  obtain ⟨path, hQ, v, cache, hv, hcache, hsame⟩ := hfresh
  refine ⟨path, hQ, v, cache, hget.trans hv, hcache, ?_⟩
  rwa [(agree_of_bare_eq hbare).stampsAt]

section Refreshing

variable {Q : List Slot → Slot → Prop} {g h : Graph σ} {path : List Slot}

/-- Reading brings up to date what each evaluation in it does. -/
theorem readEach_fresh {eval : Evaluator σ} {spec : Slot → Except Fault Value}
    (hfaithful : Faithful g eval spec)
    (heval : ∀ {h : Graph σ} (next : Slot), h.Ready → h.bare = g.bare →
      (∀ p s, g.Meets path next p s → Q p s) →
      ∀ s, (h.Fresh Q s ∨ ∃ p, g.Meets path next p s) → (eval next h).2.Fresh Q s)
    (reads : List (ModuleId × String)) (hh : h.Ready) (hbare : h.bare = g.bare)
    (hQ : ∀ read ∈ reads, ∀ next, g.lookup read.1 read.2 = some next →
      ∀ p s, g.Meets path next p s → Q p s)
    {s : Slot} (hs : h.Fresh Q s ∨ ∃ read ∈ reads, ∃ next p,
      g.lookup read.1 read.2 = some next ∧ g.Meets path next p s) :
    (readEach eval reads h).2.Fresh Q s := by
  induction reads generalizing h with
  | nil => simpa [readEach] using hs
  | cons first reads ih =>
      obtain ⟨m, name⟩ := first
      rw [List.forall_mem_cons] at hQ
      obtain ⟨hfirst, hrest⟩ := hQ
      obtain ⟨-, hready, hbare'⟩ := hfaithful.read hh hbare m name
      refine ih hready hbare' hrest ?_
      -- what the first read does not bring up to date is left to the later ones
      have hread : (h.Fresh Q s ∨ ∃ next p, g.lookup m name = some next ∧ g.Meets path next p s) →
          (read eval m name h).2.Fresh Q s := by
        intro hs
        unfold read
        rw [(agree_of_bare_eq hbare).lookup]
        cases hlookup : g.lookup m name with
        | none => simpa [hlookup] using hs
        | some next =>
            refine heval next hh hbare (hfirst next hlookup) s (hs.imp_right ?_)
            rintro ⟨next', p, hnext', hmeets⟩
            rw [hlookup] at hnext'
            cases hnext'
            exact ⟨p, hmeets⟩
      rcases hs with hs | ⟨read, hmem, next, p, hlookup, hmeets⟩
      · exact Or.inl (hread (Or.inl hs))
      · rcases List.mem_cons.mp hmem with rfl | hmem
        · exact Or.inl (hread (Or.inr ⟨next, p, hlookup, hmeets⟩))
        · exact Or.inr ⟨read, hmem, next, p, hlookup, hmeets⟩

/-- After an evaluation, every variable that it visits is current on one of the paths, and so is every
variable that was before. -/
theorem evaluateWithin_fresh {depth : Nat} (hdepth : g.unvisited path ≤ depth) (slot : Slot)
    (hh : h.Ready) (hbare : h.bare = g.bare) (hQ : ∀ p s, g.Meets path slot p s → Q p s)
    (s : Slot) (hs : h.Fresh Q s ∨ ∃ p, g.Meets path slot p s) :
    (evaluateWithin depth path slot h).2.Fresh Q s := by
  induction depth generalizing path h slot s with
  | zero =>
      rw [evaluateWithin_zero]
      refine hs.resolve_right ?_
      rintro ⟨p, hmeets⟩
      have hpos := hmeets.unvisited_pos
      omega
  | succ depth ih =>
      by_cases hblocked : slot ∈ path ∨ g.vars.get? slot = none
      · rw [evaluateWithin_blocked (agree_of_bare_eq hbare).symm hblocked]
        exact hs.resolve_right fun ⟨p, hmeets⟩ => hmeets.not_blocked hblocked
      · obtain ⟨hmem, v, hv⟩ := exists_of_not_blocked hblocked
        have hlt := unvisited_cons_lt hmem hv
        have hdepth' : g.unvisited (slot :: path) ≤ depth := by omega
        have hnext := evaluateWithin_faithful hdepth'
        obtain ⟨stamps, mid, hread, hstamps, -, hmid, heval, hconcluded⟩ :=
          hnext.step hh hbare hmem hv
        rw [heval]
        by_cases hself : s = slot
        · -- the variable itself keeps what it has just read
          subst hself
          obtain ⟨w, cache, hw, hcache, hkept⟩ := hconcluded.kept
          refine ⟨path, hQ path s (.here hmem hv), w, cache, hw, hcache, ?_⟩
          rw [(agree_of_bare_eq (hconcluded.bare.trans hmid)).stampsAt]
          exact Stamp.sameList_trans hkept hstamps
        · refine Fresh.of_get?_eq hconcluded.bare (hconcluded.others s hself) ?_
          have hbelow : h.Fresh Q s ∨ ∃ read ∈ v.reads, ∃ next p,
              g.lookup read.1 read.2 = some next ∧ g.Meets (slot :: path) next p s := by
            refine hs.imp_right ?_
            rintro ⟨p, hmeets⟩
            rcases hmeets.cases_reads hv with ⟨-, hslot⟩ | ⟨read, hread, next, hlookup, hbelow⟩
            · exact absurd hslot hself
            · exact ⟨read, hread, next, p, hlookup, hbelow⟩
          have hfresh := readEach_fresh hnext
            (fun next hh hbare hQ s hs => ih hdepth' next hh hbare hQ s hs) v.reads hh hbare
            (fun read hread next hlookup p s hmeets =>
              hQ p s (.there hmem ⟨v, read, hv, hread, hlookup⟩ hmeets)) hbelow
          rwa [hread] at hfresh

end Refreshing

end CellGraph.Graph
