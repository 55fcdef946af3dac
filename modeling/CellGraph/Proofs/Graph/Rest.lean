import CellGraph.Proofs.Graph.Orderly

/-!
# Rest

A variable is at rest if it keeps a result for what its inputs keep now, and they are at rest too; to
evaluate it then changes nothing and returns what it keeps (`AtRest.evaluate`).

Bodies that are no functions of their inputs need not come to rest. But where evaluations no longer change
the version of any mutable (`Calm`), each variable that is evaluated is at rest afterwards, whatever its
body did, and nothing that was at rest is disturbed (`Calm.evaluate_rests`). So one pass brings all roots
to rest, and the next one runs nothing (`Calm.settleWithin_ok`).
-/

namespace CellGraph.Graph

variable {σ : Type}

/-! ## Variables at rest -/

/-- What a variable keeps. -/
def kept? (g : Graph σ) (slot : Slot) : Option Cache :=
  (g.vars.get? slot).bind Variable.cache

/-- The result that a variable keeps; without one, that of a variable that is not there. -/
def keptResult (g : Graph σ) (slot : Slot) : Except Fault Value :=
  ((g.kept? slot).map Cache.result).getD (.error .deleted)

/-- The stamps of names, as far as they are kept. -/
def keptStamps (g : Graph σ) (reads : List (ModuleId × String)) : List Stamp :=
  reads.map fun read => g.stampOf (g.resolve g.keptResult read)

/-- The variable is not there, or it keeps a result for what is kept for its inputs, which are at rest
too. -/
inductive AtRest (g : Graph σ) : Slot → Prop where
  | gone {slot : Slot} (hdead : g.vars.get? slot = none) : AtRest g slot
  | kept {slot : Slot} {v : Variable σ} {cache : Cache} (hv : g.vars.get? slot = some v)
      (hcache : v.cache = some cache) (hsame : Stamp.sameList cache.stamps (g.keptStamps v.reads) = true)
      (hreads : ∀ read ∈ v.reads, ∀ next, g.lookup read.1 read.2 = some next → AtRest g next) :
      AtRest g slot

theorem kept?_of_get? {g : Graph σ} {slot : Slot} {v : Variable σ} (hv : g.vars.get? slot = some v) :
    g.kept? slot = v.cache := by
  simp [kept?, hv]

theorem keptResult_of_cache {g : Graph σ} {slot : Slot} {v : Variable σ} {cache : Cache}
    (hv : g.vars.get? slot = some v) (hcache : v.cache = some cache) :
    g.keptResult slot = cache.result := by
  simp [keptResult, kept?_of_get? hv, hcache]

theorem keptResult_congr {g h : Graph σ} {slot : Slot}
    (hget : h.vars.get? slot = g.vars.get? slot) : h.keptResult slot = g.keptResult slot := by
  rw [keptResult, kept?, hget]
  rfl

/-- A variable that has been evaluated keeps something. -/
theorem Orderly.kept?_evaluate {g : Graph σ} (hg : g.Orderly) {slot : Slot} {v : Variable σ}
    (hv : g.vars.get? slot = some v) : (g.evaluate slot).2.kept? slot ≠ none := by
  obtain ⟨w, hw, -, hcases⟩ := hg.evaluate_cases (alike_refl g) hv
  rcases hcases with ⟨cache, hcache, -, heval⟩ | ⟨-, hran⟩
  · rw [heval, kept?_of_get? hw, hcache]
    exact Option.some_ne_none cache
  · rw [kept?_of_get? hran.self]
    exact Option.some_ne_none _

/-- Where each evaluation returns what is kept and changes nothing, what is kept is read. -/
theorem readEach_eq_keptStamps {g : Graph σ} {eval : Evaluator σ} {reads : List (ModuleId × String)}
    (heval : ∀ read ∈ reads, ∀ next, g.lookup read.1 read.2 = some next →
      eval next g = (g.keptResult next, g)) : readEach eval reads g = (g.keptStamps reads, g) := by
  induction reads with
  | nil => rfl
  | cons first reads ih =>
      rw [List.forall_mem_cons] at heval
      have hread : read eval first.1 first.2 g = (g.stampOf (g.resolve g.keptResult first), g) := by
        unfold read resolve
        cases hlookup : g.lookup first.1 first.2 with
        | none => simp [stampOf, versionOf_builtin]
        | some next =>
            simp only [heval.1 next hlookup]
            rfl
      simp only [readEach, hread, ih heval.2]
      rfl

/-- What is at rest depends on nothing that depends on it. -/
theorem AtRest.acyclicFrom {g : Graph σ} {slot : Slot} (hrest : g.AtRest slot) : g.AcyclicFrom slot := by
  induction hrest with
  | gone hdead =>
      refine acyclicFrom_of_next fun next hnext => ?_
      obtain ⟨v, read, hv, -⟩ := hnext
      rw [hdead] at hv
      cases hv
  | kept hv _ _ _ ih =>
      refine acyclicFrom_of_next fun next hnext => ?_
      obtain ⟨w, read, hw, hread, hlookup⟩ := hnext
      rw [hv] at hw
      cases hw
      exact ih read hread next hlookup

/-- To evaluate a variable at rest changes nothing, on whatever way it is come to. -/
theorem AtRest.evaluateWithin {g : Graph σ} {slot : Slot} (hrest : g.AtRest slot) {path : List Slot}
    {depth : Nat} (htrail : g.Trail path slot) (hdepth : g.unvisited path ≤ depth) :
    evaluateWithin depth path slot g = (g.keptResult slot, g) := by
  induction hrest generalizing path depth with
  | @gone slot hdead =>
      have hmem := (AtRest.gone hdead).acyclicFrom.not_mem htrail
      rw [evaluateWithin_dead hmem hdead]
      simp [keptResult, kept?, hdead]
  | @kept slot v cache hv hcache hsame hreads ih =>
      have hmem := (AtRest.kept hv hcache hsame hreads).acyclicFrom.not_mem htrail
      have hlt := unvisited_cons_lt hmem hv
      obtain ⟨rest, rfl⟩ : ∃ rest, depth = rest + 1 := ⟨depth - 1, by omega⟩
      have hstamps : readEach (Graph.evaluateWithin rest (slot :: path)) v.reads g =
          (g.keptStamps v.reads, g) := by
        refine readEach_eq_keptStamps fun read hread next hlookup => ?_
        exact ih read hread next hlookup (htrail.cons ⟨v, read, hv, hread, hlookup⟩) (by omega)
      rw [evaluateWithin_succ hmem hv, hstamps, keptResult_of_cache hv hcache]
      exact conclude_hit (cached?_eq_some_iff.mpr ⟨v, cache, hv, hcache, hsame, rfl⟩) v.rule

theorem AtRest.evaluate {g : Graph σ} (hg : g.Sound) {slot : Slot} (hrest : g.AtRest slot) :
    g.evaluate slot = (g.keptResult slot, g) :=
  hrest.evaluateWithin (g.trail_nil slot) hg.unvisited_nil_le

/-! ## What does not disturb -/

/-- From the first graph to the second, no mutable has changed and no variable that was at rest. -/
structure Leaves (g h : Graph σ) : Prop where
  alike : g.Alike h
  version : h.versionOf = g.versionOf
  rest : ∀ {slot : Slot}, g.AtRest slot → h.AtRest slot ∧ h.vars.get? slot = g.vars.get? slot

theorem leaves_refl (g : Graph σ) : g.Leaves g where
  alike := alike_refl g
  version := rfl
  rest hrest := ⟨hrest, rfl⟩

theorem Leaves.trans {g₁ g₂ g₃ : Graph σ} (h₁₂ : g₁.Leaves g₂) (h₂₃ : g₂.Leaves g₃) : g₁.Leaves g₃ where
  alike := h₁₂.alike.trans h₂₃.alike
  version := h₂₃.version.trans h₁₂.version
  rest hrest := by
    obtain ⟨hrest₂, hget₂⟩ := h₁₂.rest hrest
    obtain ⟨hrest₃, hget₃⟩ := h₂₃.rest hrest₂
    exact ⟨hrest₃, hget₃.trans hget₂⟩

/-- What is kept for names is as before, where the variables that have them are unchanged. -/
theorem keptStamps_congr {g h : Graph σ} (halike : g.Alike h) (hversion : h.versionOf = g.versionOf)
    {reads : List (ModuleId × String)}
    (hget : ∀ read ∈ reads, ∀ next, g.lookup read.1 read.2 = some next →
      h.vars.get? next = g.vars.get? next) : h.keptStamps reads = g.keptStamps reads := by
  refine List.map_congr_left fun read hread => ?_
  have hresolve : h.resolve h.keptResult read = g.resolve g.keptResult read := by
    unfold resolve
    rw [halike.lookup]
    cases hlookup : g.lookup read.1 read.2 with
    | none => rfl
    | some next => exact keptResult_congr (hget read hread next hlookup)
  rw [hresolve]
  simp only [stampOf, hversion]

/-- Where the variables at rest are unchanged, they are still at rest. -/
theorem leaves_of_get? {g h : Graph σ} (halike : g.Alike h) (hversion : h.versionOf = g.versionOf)
    (hget : ∀ {slot : Slot}, g.AtRest slot → h.vars.get? slot = g.vars.get? slot) : g.Leaves h where
  alike := halike
  version := hversion
  rest {slot} hrest := by
    refine ⟨?_, hget hrest⟩
    induction hrest with
    | gone hdead => exact .gone ((hget (.gone hdead)).trans hdead)
    | kept hv hcache hsame hreads ih =>
        refine .kept ((hget (.kept hv hcache hsame hreads)).trans hv) hcache ?_ ?_
        · rwa [keptStamps_congr halike hversion fun read hread next hlookup =>
            hget (hreads read hread next hlookup)]
        · intro read hread next hlookup
          rw [halike.lookup] at hlookup
          exact ih read hread next hlookup

/-- A run of a variable that keeps nothing for what is kept for its inputs disturbs nothing, provided that
it changes no mutable: the variable itself was not at rest. -/
theorem Ran.leaves {g : Graph σ} {slot : Slot} {v : Variable σ} {out : Except Fault Value × Graph σ}
    (hran : g.Ran slot v (g.keptStamps v.reads) out) (hv : g.vars.get? slot = some v)
    (hmiss : ∀ cache, v.cache = some cache →
      Stamp.sameList cache.stamps (g.keptStamps v.reads) = false)
    (hversion : out.2.versionOf = g.versionOf) : g.Leaves out.2 := by
  refine leaves_of_get? hran.alike hversion fun {other} hother => hran.others ?_
  rintro rfl
  cases hother with
  | gone hdead =>
      rw [hv] at hdead
      cases hdead
  | kept hv' hcache hsame _ =>
      rw [hv] at hv'
      cases hv'
      rw [hmiss _ hcache] at hsame
      cases hsame

/-- It brings the variable to rest if the inputs are. -/
theorem Ran.atRest {g : Graph σ} {slot : Slot} {v : Variable σ} {out : Except Fault Value × Graph σ}
    (hran : g.Ran slot v (g.keptStamps v.reads) out) (hleaves : g.Leaves out.2)
    (hreads : ∀ read ∈ v.reads, ∀ next, g.lookup read.1 read.2 = some next → g.AtRest next) :
    out.2.AtRest slot := by
  have hstill : out.2.keptStamps v.reads = g.keptStamps v.reads :=
    keptStamps_congr hleaves.alike hleaves.version fun read hread next hlookup =>
      (hleaves.rest (hreads read hread next hlookup)).2
  refine .kept hran.self rfl ?_ fun read hread next hlookup => ?_
  · rw [← hstill]
    exact Stamp.sameList_refl _
  · rw [hleaves.alike.lookup] at hlookup
    exact (hleaves.rest (hreads read hread next hlookup)).1

/-! ## Coming to rest -/

/-- An evaluation of a variable brings it to rest and disturbs nothing. -/
structure Rests (g : Graph σ) (slot : Slot) (out : Except Fault Value × Graph σ) : Prop where
  leaves : g.Leaves out.2
  rest : out.2.AtRest slot
  result : out.1 = out.2.keptResult slot

/-- Where each evaluation that has a result as wanted brings its variable to rest, reading such results brings
to rest what is read, and what it has read is kept afterwards. -/
theorem readEach_rests {P : Graph σ → Prop} {T : Except Fault Value → Prop} {g : Graph σ}
    {eval : Evaluator σ} {reads : List (ModuleId × String)}
    (heval : ∀ read ∈ reads, ∀ next, g.lookup read.1 read.2 = some next → ∀ {h : Graph σ}, P h →
      g.Alike h → T (eval next h).1 → P (eval next h).2 ∧ h.Rests next (eval next h))
    {h : Graph σ} (hh : P h) (halike : g.Alike h)
    (hgood : ∀ stamp ∈ (readEach eval reads h).1, T stamp.result) :
    P (readEach eval reads h).2 ∧ h.Leaves (readEach eval reads h).2 ∧
      (readEach eval reads h).1 = (readEach eval reads h).2.keptStamps reads ∧
      ∀ read ∈ reads, ∀ next, g.lookup read.1 read.2 = some next →
        (readEach eval reads h).2.AtRest next := by
  induction reads generalizing h with
  | nil => exact ⟨hh, leaves_refl h, rfl, by simp⟩
  | cons first reads ih =>
      rw [List.forall_mem_cons] at heval
      obtain ⟨hfirst, hlater⟩ := heval
      simp only [readEach, List.forall_mem_cons] at hgood ⊢
      have hread : P (read eval first.1 first.2 h).2 ∧ h.Leaves (read eval first.1 first.2 h).2 ∧
          [(read eval first.1 first.2 h).1] = (read eval first.1 first.2 h).2.keptStamps [first] ∧
          ∀ next, g.lookup first.1 first.2 = some next →
            (read eval first.1 first.2 h).2.AtRest next := by
        cases hlookup : g.lookup first.1 first.2 with
        | none =>
            rw [← halike.lookup] at hlookup
            simp only [read, hlookup]
            refine ⟨hh, leaves_refl h, ?_, by simp⟩
            simp [keptStamps, resolve, hlookup, stampOf, versionOf_builtin]
        | some next =>
            have hlookup' := (halike.lookup first.1 first.2).trans hlookup
            simp only [read, hlookup'] at hgood ⊢
            obtain ⟨hmid, hnext⟩ := hfirst next hlookup hh halike hgood.1
            refine ⟨hmid, hnext.leaves, ?_, ?_⟩
            · rw [← hnext.leaves.alike.lookup] at hlookup'
              simp [keptStamps, resolve, hlookup', hnext.result, stampOf]
            · rintro _ ⟨⟩
              exact hnext.rest
      obtain ⟨hmid, hleaves, hstamp, hatRest⟩ := hread
      have halike' := halike.trans hleaves.alike
      obtain ⟨hout, hleaves', hstamps, hatRest'⟩ := ih hlater hmid halike' hgood.2
      refine ⟨hout, hleaves.trans hleaves', ?_, ?_⟩
      · -- the first stamp is still kept, since what it came from has been at rest
        have hkept : (readEach eval reads (read eval first.1 first.2 h).2).2.keptStamps [first] =
            (read eval first.1 first.2 h).2.keptStamps [first] := by
          refine keptStamps_congr hleaves'.alike hleaves'.version ?_
          intro read hread next hlookup
          rw [List.mem_singleton.mp hread, halike'.lookup] at hlookup
          exact (hleaves'.rest (hatRest next hlookup)).2
        rw [← hstamp] at hkept
        have hsplit : ∀ k : Graph σ, k.keptStamps (first :: reads) =
            k.keptStamps [first] ++ k.keptStamps reads := fun k => rfl
        rw [hsplit, hkept, ← hstamps]
        rfl
      · exact ⟨fun next hlookup => (hleaves'.rest (hatRest next hlookup)).1, hatRest'⟩

/-- Once all that a variable reads is at rest and has been read, a conclusion brings the variable to rest and
disturbs nothing, provided that it changes no mutable. -/
theorem rests_conclude {g h : Graph σ} (hleaves : g.Leaves h) {slot : Slot} {v : Variable σ}
    (hv : h.vars.get? slot = some v) (hrule : v.rule.Satisfies Body.Lasting)
    (hinputs : ∀ read ∈ v.reads, ∀ next, h.lookup read.1 read.2 = some next → h.AtRest next)
    (hversion : (h.conclude slot v.rule (h.keptStamps v.reads)).2.versionOf = h.versionOf) :
    g.Rests slot (h.conclude slot v.rule (h.keptStamps v.reads)) := by
  rcases conclude_cases hv hrule (h.keptStamps v.reads) with ⟨cache, hcache, hsame, hhit⟩ | ⟨hmiss, hran⟩
  · rw [hhit]
    exact ⟨hleaves, .kept hv hcache hsame hinputs, (keptResult_of_cache hv hcache).symm⟩
  · have hleaves' := hran.leaves hv hmiss hversion
    exact ⟨hleaves.trans hleaves', hran.atRest hleaves' hinputs,
      (keptResult_of_cache hran.self rfl).symm⟩

/-! ## Calm graphs -/

/-- Graphs that evaluation leads from one to another without changing the version of any mutable. -/
structure Calm (P : Graph σ → Prop) : Prop where
  orderly : ∀ {g : Graph σ}, P g → g.Orderly
  evaluate : ∀ {g : Graph σ} (slot : Slot), P g →
    P (g.evaluate slot).2 ∧ (g.evaluate slot).2.versionOf = g.versionOf

section Calm

variable {P : Graph σ → Prop} (hP : Calm P)
include hP

/-- In a calm graph, evaluating a variable brings it to rest and disturbs nothing. -/
theorem Calm.evaluate_rests {g : Graph σ} (hg : P g) (slot : Slot) : g.Rests slot (g.evaluate slot) := by
  -- along the dependencies, for every graph that is alike
  suffices hall : ∀ {h : Graph σ}, P h → g.Alike h → h.Rests slot (h.evaluate slot) from
    hall hg (alike_refl g)
  refine (hP.orderly hg).induction
    (P := fun slot => ∀ {h : Graph σ}, P h → g.Alike h → h.Rests slot (h.evaluate slot)) ?_ slot
  intro slot ih h hh halike
  cases hv : h.vars.get? slot with
  | none =>
      rw [evaluate_dead hv]
      exact ⟨leaves_refl h, .gone hv, by simp [keptResult, kept?, hv]⟩
  | some v =>
      have hreads : P (h.readings v.reads).2 ∧ h.Leaves (h.readings v.reads).2 ∧
          (h.readings v.reads).1 = (h.readings v.reads).2.keptStamps v.reads ∧
          ∀ read ∈ v.reads, ∀ next, h.lookup read.1 read.2 = some next →
            (h.readings v.reads).2.AtRest next := by
        refine readEach_rests (T := fun _ => True) ?_ hh (alike_refl h) fun _ _ => trivial
        intro read hread next hlookup k hk hhk _
        have hnext : g.DependsOn slot next := halike.dependsOn ▸ ⟨v, read, hv, hread, hlookup⟩
        exact ⟨(hP.evaluate next hk).1, ih next hnext hk (halike.trans hhk)⟩
      obtain ⟨-, hleaves, hstamps, hatRest⟩ := hreads
      have hversion := (hP.evaluate slot hh).2
      obtain ⟨w, hw, hwv⟩ := hleaves.alike.exists_of_get? hv
      have hlasting := ((hP.orderly hh).readings v.reads).1.kept.rules hw
      rw [(hP.orderly hh).evaluate_eq hv, hstamps, ← Variable.reads_eq_of_bare_eq hwv,
        ← Variable.rule_eq_of_bare_eq hwv] at hversion ⊢
      rw [← Variable.reads_eq_of_bare_eq hwv] at hleaves hatRest hw
      refine rests_conclude hleaves hw hlasting (fun read hread next hlookup => ?_)
        (hversion.trans hleaves.version.symm)
      rw [hleaves.alike.lookup] at hlookup
      exact hatRest read hread next hlookup

/-! ## Settling -/

theorem Calm.evaluateAll {g : Graph σ} (hg : P g) (slots : List Slot) : P (g.evaluateAll slots) ∧
    g.Leaves (g.evaluateAll slots) ∧ ∀ slot ∈ slots, (g.evaluateAll slots).AtRest slot := by
  induction slots generalizing g with
  | nil => exact ⟨hg, leaves_refl g, by simp⟩
  | cons slot slots ih =>
      have hslot := hP.evaluate_rests hg slot
      obtain ⟨hdone, hleaves, hrest⟩ := ih (hP.evaluate slot hg).1
      refine ⟨hdone, hslot.leaves.trans hleaves, ?_⟩
      rw [List.forall_mem_cons]
      exact ⟨(hleaves.rest hslot.rest).1, hrest⟩

/-- A second pass over a calm graph runs nothing. -/
theorem Calm.pass_pass {g : Graph σ} (hg : P g) : g.pass.pass = g.pass := by
  obtain ⟨hdone, hleaves, hrest⟩ := hP.evaluateAll hg g.roots
  refine (evaluateAll_eq_iff g.pass.roots g.pass).mpr fun slot hslot => ?_
  have hslot : slot ∈ g.roots := hleaves.alike.roots ▸ hslot
  exact congrArg Prod.snd ((hrest slot hslot).evaluate (hP.orderly hdone).kept.sound)

/-- Two passes settle a calm graph, and it stays calm. -/
theorem Calm.settleWithin_ok {g : Graph σ} (hg : P g) {passes : Nat} (hpasses : 2 ≤ passes) :
    (settleWithin passes g).1 = .ok () ∧ P (settleWithin passes g).2 := by
  obtain ⟨rest, rfl⟩ : ∃ rest, passes = rest + 1 + 1 := ⟨passes - 2, by omega⟩
  have hpass : P g.pass := (hP.evaluateAll hg g.roots).1
  simp only [settleWithin]
  split
  · exact ⟨rfl, hpass⟩
  · rw [hP.pass_pass hg, if_pos rfl]
    exact ⟨rfl, hpass⟩

end Calm

end CellGraph.Graph
