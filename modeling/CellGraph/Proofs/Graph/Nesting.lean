import CellGraph.Proofs.Graph.Acts
import CellGraph.Proofs.Graph.Orderly
import Mathlib.Data.List.Perm.Subperm

/-!
# How deep evaluations nest, and when they succeed

Evaluation follows names from variable to variable, through any modules. What cuts it off is the path of
the variables that wait: it holds each variable at most once, and no body can make variables appear. So
the calls nest no deeper than there are variables, plus one, whatever the bodies do (`nested_eq`): the
bound that `evaluateWithin` is given is never met.

Where bodies never fail and delete nothing, an evaluation can only fail because of a name: one that leads
back to a variable that waits, or one that leads nowhere. Which of the names that are read do so is a
matter of the variables and names alone (`Clear`), so whatever has been kept while a path was cut off is of
no consequence for an evaluation from elsewhere.
-/

namespace CellGraph

variable {σ : Type}

/-- A body that never fails and deletes nothing. -/
structure Body.Unfailing (body : Body σ) : Prop where
  lasting : body.Lasting
  result : ∀ inputs world, ∃ value, (body inputs world).result = .ok value

theorem Body.unfailing_first : Body.Unfailing (.first : Body σ) :=
  ⟨fun _ _ => rfl, fun _ _ => ⟨_, rfl⟩⟩

/-- Results are all values exactly where there is no first fault among them. -/
theorem mapM_id_ok_iff {results : List (Except Fault Value)} :
    (∃ inputs, results.mapM id = .ok inputs) ↔ ∀ result ∈ results, ∃ value, result = .ok value := by
  induction results with
  | nil => exact ⟨fun _ => by simp, fun _ => ⟨[], rfl⟩⟩
  | cons result results ih =>
      rw [List.forall_mem_cons, ← ih, List.mapM_cons]
      cases result with
      | error fault =>
          constructor
          · rintro ⟨inputs, hinputs⟩
            cases hinputs
          · rintro ⟨⟨value, hvalue⟩, -⟩
            cases hvalue
      | ok value =>
          cases hrest : results.mapM id with
          | error fault =>
              constructor
              · rintro ⟨inputs, hinputs⟩
                cases hinputs
              · rintro ⟨-, inputs, hinputs⟩
                cases hinputs
          | ok inputs => exact ⟨fun _ => ⟨⟨value, rfl⟩, inputs, rfl⟩, fun _ => ⟨value :: inputs, rfl⟩⟩

namespace Variable

variable {v : Variable σ} {g : Graph σ} {world : World σ} {results : List (Except Fault Value)}

/-- A rule that fits has a value only where all that was read has one. -/
theorem results_ok_of_result (hfits : v.rule.Fits g v.inputs) (hlength : results.length = v.reads.length)
    {value : Value} (hok : v.rule.result world results = .ok value) :
    ∀ result ∈ results, ∃ value, result = .ok value := by
  cases hrule : v.rule with
  | undefined =>
      rw [hrule] at hfits
      have hinputs : v.inputs = [] := hfits
      have hnil : results = [] := by simpa [reads, hrule, hinputs] using hlength
      simp [hnil]
  | importing name source =>
      have hone : results.length = 1 := by simpa [reads, hrule] using hlength
      obtain ⟨result, rfl⟩ := List.length_eq_one_iff.mp hone
      rw [hrule] at hok
      have hresult : result = .ok value := hok
      simp [hresult]
  | define body =>
      rw [hrule] at hok
      refine mapM_id_ok_iff.mp ?_
      cases hinputs : results.mapM id with
      | error fault =>
          simp only [Rule.result, hinputs, Except.bind] at hok
          cases hok
      | ok inputs => exact ⟨inputs, rfl⟩

/-- A rule that never fails has a value wherever all that was read has one. -/
theorem result_ok_of_results (hrule : v.rule.Satisfies Body.Unfailing)
    (hlength : results.length = v.reads.length)
    (hok : ∀ result ∈ results, ∃ value, result = .ok value) :
    ∃ value, v.rule.result world results = .ok value := by
  cases hdefine : v.rule with
  | undefined => exact ⟨.undefined, rfl⟩
  | importing name source =>
      have hone : results.length = 1 := by simpa [reads, hdefine] using hlength
      obtain ⟨result, rfl⟩ := List.length_eq_one_iff.mp hone
      exact hok result (by simp)
  | define body =>
      have hbody : Body.Unfailing body := hrule body hdefine
      obtain ⟨inputs, hinputs⟩ := mapM_id_ok_iff.mpr hok
      obtain ⟨value, hvalue⟩ := hbody.result inputs world
      refine ⟨value, ?_⟩
      simp only [Rule.result, hinputs, Except.bind]
      exact hvalue

end Variable

namespace Graph

/-! ## Depth -/

/-- No variable appears off a path. -/
theorem Shrinks.unvisited_le {g h : Graph σ} (hgh : g.Shrinks h) (path : List Slot) :
    h.unvisited path ≤ g.unvisited path := by
  have hplaces : ∀ k : Graph σ, k.unvisited path =
      ((k.vars.toList.map Prod.fst).filter fun slot => slot ∉ path).length := by
    intro k
    rw [List.filter_map, List.length_map]
    rfl
  rw [hplaces g, hplaces h]
  refine List.Subperm.length_le (List.Nodup.subperm (h.vars.nodup_toList.filter _) fun slot hslot => ?_)
  obtain ⟨hslot, hpath⟩ := List.mem_filter.mp hslot
  obtain ⟨⟨s, w⟩, hw, rfl⟩ := List.mem_map.mp hslot
  obtain ⟨v, hv, -⟩ := hgh s w (Slots.mem_toList.mp hw)
  exact List.mem_filter.mpr ⟨List.mem_map.mpr ⟨(s, v), Slots.mem_toList.mpr hv, rfl⟩, hpath⟩

/-- Calls that nest no deeper than `n`: there is no result where they would. -/
abbrev Nested (σ : Type) := Slot → Graph σ → Option (Except Fault Value × Graph σ)

/-- Reads names in modules, one after the other, with calls that may nest too deep. -/
def readNested (eval : Nested σ) : List (ModuleId × String) → Graph σ → Option (List Stamp × Graph σ)
  | [], g => some ([], g)
  | (m, name) :: reads, g =>
    match g.lookup m name with
    | some slot => do
      let (result, h) ← eval slot g
      let (stamps, k) ← readNested eval reads h
      some (h.stampOf result :: stamps, k)
    | none => do
      let (stamps, h) ← readNested eval reads g
      some ({ result := builtin name, version := 0 } :: stamps, h)

/-- Evaluates a variable on a path of variables that wait for it, with calls nested at most `n` deep. No
call is refused for the sake of a bound: one that would nest deeper has no result. -/
def nested : (n : Nat) → (path : List Slot) → Nested σ
  | 0, _, _, _ => none
  | n + 1, path, slot, g =>
    if slot ∈ path then some (.error (.circular (g.label slot)), g)
    else match g.vars.get? slot with
      | none => some (.error .deleted, g)
      | some v => do
        let (stamps, h) ← readNested (nested n (slot :: path)) v.reads g
        some (h.conclude slot v.rule stamps)

/-- Where no call nests too deep, on any graph that reading may come to, reading goes through. -/
theorem readNested_eq {P : Graph σ → Prop} {eval : Evaluator σ} {eval' : Nested σ}
    (heval : ∀ {h : Graph σ} (slot : Slot), P h → eval' slot h = some (eval slot h) ∧ P (eval slot h).2)
    (reads : List (ModuleId × String)) {g : Graph σ} (hg : P g) :
    readNested eval' reads g = some (readEach eval reads g) := by
  induction reads generalizing g with
  | nil => rfl
  | cons first reads ih =>
      simp only [readNested, readEach, read]
      cases g.lookup first.1 first.2 with
      | none => simp [ih hg]
      | some slot =>
          obtain ⟨hsome, hP⟩ := heval slot hg
          simp [hsome, ih hP, stampOf]

/-- Calls nest one deeper than there are variables off the path, at most, and with that many the bound on
the depth is not met. -/
theorem nested_succ_eq {g : Graph σ} {path : List Slot} {n depth : Nat} (hn : g.unvisited path ≤ n)
    (hdepth : g.unvisited path ≤ depth) (slot : Slot) :
    nested (n + 1) path slot g = some (evaluateWithin depth path slot g) := by
  -- each call puts a variable on the path, and what has been read before has added none off it
  induction n generalizing g path depth slot with
  | zero =>
      unfold nested
      by_cases hmem : slot ∈ path
      · rw [if_pos hmem, evaluateWithin_mem hmem]
      · rw [if_neg hmem]
        cases hv : g.vars.get? slot with
        | none => rw [evaluateWithin_dead hmem hv]
        | some v =>
            have hlt := unvisited_cons_lt hmem hv
            omega
  | succ n ih =>
      unfold nested
      by_cases hmem : slot ∈ path
      · rw [if_pos hmem, evaluateWithin_mem hmem]
      · rw [if_neg hmem]
        cases hv : g.vars.get? slot with
        | none => rw [evaluateWithin_dead hmem hv]
        | some v =>
            have hlt := unvisited_cons_lt hmem hv
            obtain ⟨rest, rfl⟩ : ∃ rest, depth = rest + 1 := ⟨depth - 1, by omega⟩
            have hreads : readNested (nested (n + 1) (slot :: path)) v.reads g =
                some (readEach (evaluateWithin rest (slot :: path)) v.reads g) := by
              refine readNested_eq (P := g.Shrinks) (fun {h} next hh => ?_) v.reads (shrinks_refl g)
              have hle := hh.unvisited_le (slot :: path)
              exact ⟨ih (by omega) (by omega) next,
                hh.trans (shrinks_evaluateWithin rest (slot :: path) next h)⟩
            rw [evaluateWithin_succ hmem hv]
            simp [hreads]

/-- The calls of an evaluation nest no deeper than there are variables, plus one. -/
theorem nested_eq {g : Graph σ} (hg : g.Sound) {n : Nat} (hn : g.vars.size + 1 ≤ n) (slot : Slot) :
    nested n [] slot g = some (g.evaluate slot) := by
  obtain ⟨rest, rfl⟩ : ∃ rest, n = rest + 1 := ⟨n - 1, by omega⟩
  have hnil := hg.unvisited_nil_le
  exact nested_succ_eq (by omega) hnil slot

/-- Beyond the variables off the path, the bound on the depth does not matter. -/
theorem evaluateWithin_depth {g : Graph σ} {path : List Slot} {depth depth' : Nat}
    (hdepth : g.unvisited path ≤ depth) (hdepth' : g.unvisited path ≤ depth') (slot : Slot) :
    evaluateWithin depth path slot g = evaluateWithin depth' path slot g :=
  Option.some.inj ((nested_succ_eq hdepth hdepth slot).symm.trans (nested_succ_eq hdepth hdepth' slot))

/-! ## Names that lead somewhere -/

/-- Every name that is read by a variable that can be reached leads to a variable or is a builtin. -/
def ClosedFrom (g : Graph σ) (slot : Slot) : Prop :=
  ∀ s, Relation.ReflTransGen g.DependsOn slot s → ∀ v, g.vars.get? s = some v → ∀ read ∈ v.reads,
    (∃ next, g.lookup read.1 read.2 = some next) ∨ ∃ which, Intrinsic.ofName? read.2 = some which

/-- A name leads to a variable with a property, or is a builtin. -/
def Leads (g : Graph σ) (P : Slot → Prop) (read : ModuleId × String) : Prop :=
  match g.lookup read.1 read.2 with
  | some next => P next
  | none => ∃ which, Intrinsic.ofName? read.2 = some which

theorem leads_some {g : Graph σ} {P : Slot → Prop} {read : ModuleId × String} {next : Slot}
    (hlookup : g.lookup read.1 read.2 = some next) : g.Leads P read ↔ P next := by
  simp [Leads, hlookup]

theorem leads_none {g : Graph σ} {P : Slot → Prop} {read : ModuleId × String}
    (hlookup : g.lookup read.1 read.2 = none) :
    g.Leads P read ↔ ∃ which, Intrinsic.ofName? read.2 = some which := by
  simp [Leads, hlookup]

/-- Nothing in the names keeps the variable from having a value on the path. -/
structure Clear (g : Graph σ) (path : List Slot) (slot : Slot) : Prop where
  live : ∃ v, g.vars.get? slot = some v
  avoids : ∀ s, Relation.ReflTransGen g.DependsOn slot s → s ∉ path
  acyclic : g.AcyclicFrom slot
  closed : g.ClosedFrom slot

theorem Sound.live_of_lookup {g : Graph σ} (hg : g.Sound) {m : ModuleId} {name : String} {slot : Slot}
    (hlookup : g.lookup m name = some slot) : ∃ v, g.vars.get? slot = some v := by
  obtain ⟨v, hv, -⟩ := hg.named hlookup
  exact ⟨v, hv⟩

/-- The way is clear for a variable exactly where it is for all that the variable reads, with the variable
put on the path. -/
theorem Sound.clear_iff {g : Graph σ} (hg : g.Sound) {path : List Slot} {slot : Slot} :
    g.Clear path slot ↔ slot ∉ path ∧ ∃ v, g.vars.get? slot = some v ∧
      ∀ read ∈ v.reads, g.Leads (g.Clear (slot :: path)) read := by
  constructor
  · rintro ⟨⟨v, hv⟩, havoid, hacyclic, hclosed⟩
    refine ⟨havoid slot .refl, v, hv, fun read hread => ?_⟩
    cases hlookup : g.lookup read.1 read.2 with
    | none =>
        rw [leads_none hlookup]
        rcases hclosed slot .refl v hv read hread with ⟨next, hnext⟩ | hbuiltin
        · rw [hlookup] at hnext
          cases hnext
        · exact hbuiltin
    | some next =>
        rw [leads_some hlookup]
        have hnext : g.DependsOn slot next := ⟨v, read, hv, hread, hlookup⟩
        exact ⟨hg.live_of_lookup hlookup, fun s hs => hacyclic.avoids_cons havoid hnext hs,
          hacyclic.of_reachable (.single hnext), fun s hs => hclosed s (.head hnext hs)⟩
  · rintro ⟨hmem, v, hv, hreads⟩
    -- what can be reached is the variable itself, or can be reached from something that it reads
    have hnext : ∀ {next}, g.DependsOn slot next → g.Clear (slot :: path) next := by
      rintro next ⟨w, read, hw, hread, hlookup⟩
      rw [hv] at hw
      cases hw
      exact (leads_some hlookup).mp (hreads read hread)
    have hself : ¬ Relation.TransGen g.DependsOn slot slot := by
      intro hcycle
      obtain ⟨next, hdep, hback⟩ := Relation.TransGen.head'_iff.mp hcycle
      exact (hnext hdep).avoids slot hback (by simp)
    refine ⟨⟨v, hv⟩, fun s hs => ?_, fun s hs => ?_, fun s hs => ?_⟩
    · rcases hs.cases_head with rfl | ⟨next, hdep, hs⟩
      · exact hmem
      · exact fun hpath => (hnext hdep).avoids s hs (List.mem_cons_of_mem slot hpath)
    · rcases hs.cases_head with rfl | ⟨next, hdep, hs⟩
      · exact hself
      · exact (hnext hdep).acyclic s hs
    · rcases hs.cases_head with rfl | ⟨next, hdep, hs⟩
      · intro w hw read hread
        rw [hv] at hw
        cases hw
        cases hlookup : g.lookup read.1 read.2 with
        | none => exact Or.inr ((leads_none hlookup).mp (hreads read hread))
        | some next => exact Or.inl ⟨next, rfl⟩
      · exact (hnext hdep).closed s hs

/-! ## Conclusions that succeed -/

theorem length_readEach (eval : Evaluator σ) (reads : List (ModuleId × String)) (g : Graph σ) :
    (readEach eval reads g).1.length = reads.length := by
  induction reads generalizing g with
  | nil => rfl
  | cons first reads ih => simp [readEach, ih]

/-- Results that are the same are values alike. -/
theorem ok_of_sameResult {a b : Except Fault Value} (h : sameResult a b = true)
    (ha : ∃ value, a = .ok value) : ∃ value, b = .ok value := by
  obtain ⟨value, rfl⟩ := ha
  cases b with
  | ok value' => exact ⟨value', rfl⟩
  | error fault => cases h

/-- A list of results that are the same as values holds values only. -/
theorem forall_ok_of_same {as bs : List (Except Fault Value)}
    (h : List.Forall₂ (fun a b => sameResult a b = true) as bs)
    (has : ∀ a ∈ as, ∃ value, a = .ok value) : ∀ b ∈ bs, ∃ value, b = .ok value := by
  intro b hb
  obtain ⟨a, ha, hab⟩ := exists_mem_of_forall₂ h hb
  exact ok_of_sameResult hab (has a ha)

section Conclusions

variable {Q : Body σ → Prop} {g h : Graph σ} {slot : Slot} {v : Variable σ} {stamps : List Stamp}

/-- A conclusion has a value only where all stamps have one, whatever is kept. -/
theorem Kept.stamps_ok_of_conclude (hg : g.Kept Q) (hfits : v.rule.Fits h v.inputs)
    (hrule : ∀ w, g.vars.get? slot = some w → w.rule = v.rule)
    (hlength : stamps.length = v.reads.length) {value : Value}
    (hok : (g.conclude slot v.rule stamps).1 = .ok value) :
    ∀ stamp ∈ stamps, ∃ value, stamp.result = .ok value := by
  have hall : ∀ result ∈ stamps.map Stamp.result, ∃ value, result = .ok value := by
    cases hcached : g.cached? slot stamps with
    | some result =>
        rw [conclude_hit hcached] at hok
        obtain ⟨w, cache, hw, hcache, hsame, rfl⟩ := cached?_eq_some_iff.mp hcached
        obtain ⟨world, hresult⟩ := hg.caches hw hcache
        rw [hrule w hw] at hresult
        have hresults := Stamp.sameList_results hsame
        refine forall_ok_of_same hresults ?_
        refine Variable.results_ok_of_result hfits ?_ (hresult.symm.trans hok)
        rw [hresults.length_eq, List.length_map, hlength]
    | none =>
        rw [conclude_miss hcached, run_fst] at hok
        exact Variable.results_ok_of_result hfits (by rw [List.length_map, hlength]) hok
  simpa using hall

/-- Where the body never fails, a conclusion has a value wherever all stamps have one. -/
theorem Kept.conclude_ok_of_stamps (hg : g.Kept Q) (hfits : v.rule.Satisfies Body.Unfailing)
    (hrule : ∀ w, g.vars.get? slot = some w → w.rule = v.rule)
    (hlength : stamps.length = v.reads.length)
    (hok : ∀ stamp ∈ stamps, ∃ value, stamp.result = .ok value) :
    ∃ value, (g.conclude slot v.rule stamps).1 = .ok value := by
  have hall : ∀ result ∈ stamps.map Stamp.result, ∃ value, result = .ok value := by simpa using hok
  cases hcached : g.cached? slot stamps with
  | some result =>
      rw [conclude_hit hcached]
      obtain ⟨w, cache, hw, hcache, hsame, rfl⟩ := cached?_eq_some_iff.mp hcached
      obtain ⟨world, hresult⟩ := hg.caches hw hcache
      rw [hrule w hw] at hresult
      have hresults := Stamp.sameList_results hsame
      rw [hresult]
      refine Variable.result_ok_of_results hfits ?_ (forall_ok_of_same ?_ hall)
      · rw [hresults.length_eq, List.length_map, hlength]
      · exact hresults.flip.imp fun a b hab => sameResult_symm hab
  | none =>
      rw [conclude_miss hcached, run_fst]
      exact Variable.result_ok_of_results hfits (by rw [List.length_map, hlength]) hall

/-- An evaluation has a value only where the variable is there and does not wait already, and where all that
it reads has one. -/
theorem Kept.stamps_ok_of_evaluateWithin (hg : g.Kept Q) {path : List Slot} {depth : Nat} {value : Value}
    (hok : (Graph.evaluateWithin depth path slot g).1 = .ok value)
    (hfits : ∀ v, g.vars.get? slot = some v → v.rule.Fits h v.inputs) :
    ∃ rest v, depth = rest + 1 ∧ slot ∉ path ∧ g.vars.get? slot = some v ∧
      ∀ stamp ∈ (Graph.readEach (Graph.evaluateWithin rest (slot :: path)) v.reads g).1,
        ∃ value, stamp.result = .ok value := by
  have hmem : slot ∉ path := by
    intro hmem
    rw [evaluateWithin_mem hmem] at hok
    cases hok
  cases hv : g.vars.get? slot with
  | none =>
      rw [evaluateWithin_dead hmem hv] at hok
      cases hok
  | some v =>
      cases depth with
      | zero =>
          simp only [Graph.evaluateWithin, hmem, hv, if_false] at hok
          cases hok
      | succ rest =>
          refine ⟨rest, v, rfl, hmem, rfl, ?_⟩
          rw [evaluateWithin_succ hmem hv] at hok
          refine (hg.readEach rest (slot :: path) v.reads).stamps_ok_of_conclude (hfits v hv) ?_
            (length_readEach _ v.reads g) hok
          -- reading may have deleted the variable, but cannot have given it another rule
          intro w hw
          obtain ⟨u, hu, hwu⟩ := shrinks_readEach rest (slot :: path) v.reads g slot w hw
          rw [hv] at hu
          cases hu
          exact Variable.rule_eq_of_bare_eq hwu

end Conclusions

/-! ## Evaluations that succeed -/

theorem builtin_ok_iff (name : String) :
    (∃ value, builtin name = .ok value) ↔ ∃ which, Intrinsic.ofName? name = some which := by
  unfold builtin
  cases Intrinsic.ofName? name with
  | none => simp
  | some which => simp

/-- All names that are read have values exactly where each leads to a variable that has one, provided that
which variables these are does not change on the way. -/
theorem readEach_ok_iff {g : Graph σ} {P : Graph σ → Prop} {eval : Evaluator σ} {spec : Slot → Prop}
    (hlookup : ∀ {h : Graph σ}, P h → ∀ m name, h.lookup m name = g.lookup m name)
    (heval : ∀ {h : Graph σ} (slot : Slot), P h →
      ((∃ value, (eval slot h).1 = .ok value) ↔ spec slot) ∧ P (eval slot h).2)
    (reads : List (ModuleId × String)) {h : Graph σ} (hh : P h) :
    ((∀ stamp ∈ (readEach eval reads h).1, ∃ value, stamp.result = .ok value) ↔
      ∀ read ∈ reads, g.Leads spec read) ∧ P (readEach eval reads h).2 := by
  induction reads generalizing h with
  | nil => exact ⟨by simp [readEach], hh⟩
  | cons first reads ih =>
      have hfirst : ((∃ value, (read eval first.1 first.2 h).1.result = .ok value) ↔
          g.Leads spec first) ∧ P (read eval first.1 first.2 h).2 := by
        unfold read
        rw [hlookup hh]
        cases hnext : g.lookup first.1 first.2 with
        | none => exact ⟨(builtin_ok_iff first.2).trans (leads_none hnext).symm, hh⟩
        | some next =>
            obtain ⟨hspec, hP⟩ := heval next hh
            exact ⟨hspec.trans (leads_some hnext).symm, hP⟩
      obtain ⟨hrest, hP⟩ := ih hfirst.2
      refine ⟨?_, hP⟩
      simp only [readEach, List.forall_mem_cons]
      rw [hfirst.1, hrest]

/-- A variable that waits already, or that is not there, has no value, and the way is not clear for it. -/
theorem evaluateWithin_ok_iff_of_blocked {g h : Graph σ} (halike : g.Alike h) {path : List Slot}
    {slot : Slot} (hblocked : slot ∈ path ∨ g.vars.get? slot = none) (depth : Nat) :
    (∃ value, (evaluateWithin depth path slot h).1 = .ok value) ↔ g.Clear path slot := by
  by_cases hmem : slot ∈ path
  · rw [evaluateWithin_mem hmem]
    constructor
    · rintro ⟨value, hvalue⟩
      cases hvalue
    · exact fun hclear => absurd hmem (hclear.avoids slot .refl)
  · have hdead := hblocked.resolve_left hmem
    rw [evaluateWithin_dead hmem (halike.get?_eq_none hdead)]
    constructor
    · rintro ⟨value, hvalue⟩
      cases hvalue
    · rintro ⟨⟨v, hv⟩, -⟩
      rw [hdead] at hv
      cases hv

/-- Where bodies never fail and delete nothing, a variable has a value on a path exactly where the way is
clear for it. -/
theorem evaluateWithin_ok_iff {g : Graph σ} (hsound : g.Sound) (hwired : g.Wired) {path : List Slot}
    {depth : Nat} (hdepth : g.unvisited path ≤ depth) (slot : Slot) {h : Graph σ}
    (hh : h.Kept Body.Unfailing) (halike : g.Alike h) :
    (∃ value, (evaluateWithin depth path slot h).1 = .ok value) ↔ g.Clear path slot := by
  induction depth generalizing path slot h with
  | zero =>
      refine evaluateWithin_ok_iff_of_blocked halike ?_ 0
      by_contra hfree
      obtain ⟨hmem, v, hv⟩ := exists_of_not_blocked hfree
      have hlt := unvisited_cons_lt hmem hv
      omega
  | succ depth ih =>
      by_cases hblocked : slot ∈ path ∨ g.vars.get? slot = none
      · exact evaluateWithin_ok_iff_of_blocked halike hblocked (depth + 1)
      obtain ⟨hmem, v, hv⟩ := exists_of_not_blocked hblocked
      have hlt := unvisited_cons_lt hmem hv
      obtain ⟨w, hw, hwv⟩ := halike.exists_of_get? hv
      -- reading leaves a graph that is alike, in which the way is clear for the same variables
      have hmiddle : ((∀ stamp ∈ (readEach (evaluateWithin depth (slot :: path)) v.reads h).1,
            ∃ value, stamp.result = .ok value) ↔
          ∀ read ∈ v.reads, g.Leads (g.Clear (slot :: path)) read) ∧
          (readEach (evaluateWithin depth (slot :: path)) v.reads h).2.Kept Body.Unfailing ∧
          g.Alike (readEach (evaluateWithin depth (slot :: path)) v.reads h).2 := by
        refine readEach_ok_iff (P := fun k => k.Kept Body.Unfailing ∧ g.Alike k)
          (fun hk => hk.2.lookup) (fun {k} next hk => ?_) v.reads ⟨hh, halike⟩
        have hlasting : k.Kept Body.Lasting := hk.1.imp fun _ hbody => hbody.lasting
        exact ⟨ih (by omega) next hk.1 hk.2, hk.1.evaluateWithin depth (slot :: path) next,
          hk.2.trans (hlasting.alike_evaluateWithin depth (slot :: path) next)⟩
      obtain ⟨hreads, hmid, halike'⟩ := hmiddle
      have hrule : ∀ u, (readEach (evaluateWithin depth (slot :: path)) v.reads h).2.vars.get? slot =
          some u → u.rule = v.rule := by
        intro u hu
        obtain ⟨x, hx, hxv⟩ := halike'.exists_of_get? hv
        rw [hu] at hx
        cases hx
        exact Variable.rule_eq_of_bare_eq hxv
      have hunfailing : v.rule.Satisfies Body.Unfailing := by
        rw [← Variable.rule_eq_of_bare_eq hwv]
        exact hh.rules hw
      have hlength := length_readEach (evaluateWithin depth (slot :: path)) v.reads h
      rw [evaluateWithin_succ hmem hw, Variable.reads_eq_of_bare_eq hwv, Variable.rule_eq_of_bare_eq hwv,
        hsound.clear_iff]
      constructor
      · rintro ⟨value, hvalue⟩
        refine ⟨hmem, v, hv, hreads.mp ?_⟩
        exact hmid.stamps_ok_of_conclude (hwired slot v hv) hrule hlength hvalue
      · rintro ⟨-, u, hu, hleads⟩
        rw [hv] at hu
        cases hu
        exact hmid.conclude_ok_of_stamps hunfailing hrule hlength (hreads.mpr hleads)

/-- Evaluation always ends, and it succeeds exactly where names lead somewhere and not back. After every run
of acts, whatever the bodies, the calls of an evaluation nest no deeper than there are variables, plus one.
If no body fails or deletes anything, an evaluation of a variable that is there has a value if and only if
no cycle can be reached from the variable and every name that is reached leads to a variable or a builtin;
what has been kept does not matter. -/
theorem evaluate_ends (world : World σ) (maxPasses : Nat) (acts : List (Act σ))
    (hvalid : Act.ValidAll { world, maxPasses } acts) (slot : Slot) :
    let g := Act.applyAll { world, maxPasses } acts
    (∀ n, g.vars.size + 1 ≤ n → nested n [] slot g = some (g.evaluate slot)) ∧
      ((∀ s v, g.vars.get? s = some v → v.rule.Satisfies Body.Unfailing) →
        ((∃ value, (g.evaluate slot).1 = .ok value) ↔
          (∃ v, g.vars.get? slot = some v) ∧ g.AcyclicFrom slot ∧ g.ClosedFrom slot)) := by
  intro g
  have hg : g.Intact := intact_applyAll world maxPasses acts hvalid
  have hsound := hg.kept.sound
  refine ⟨fun n hn => nested_eq hsound hn slot, fun hbodies => ?_⟩
  have hclear : (∃ value, (g.evaluate slot).1 = .ok value) ↔ g.Clear [] slot :=
    evaluateWithin_ok_iff hsound hg.wired hsound.unvisited_nil_le slot (hg.kept_of_rules hbodies)
      (alike_refl g)
  rw [hclear]
  constructor
  · exact fun h => ⟨h.live, h.acyclic, h.closed⟩
  · exact fun ⟨hlive, hacyclic, hclosed⟩ => ⟨hlive, by simp, hacyclic, hclosed⟩

/-- Two modules that import from each other, and an import of a variable that reads a builtin: only the
latter has a value. -/
theorem evaluate_ends_mutual_imports :
    let start : Graph Unit := { world := { host := () }, maxPasses := 2 }
    let acts : List (Act Unit) := [.op (.edit .newModule), .op (.edit .newModule),
      .op (.edit (.newVariable ⟨0⟩ none)), .op (.edit (.importing ⟨0, 0⟩ "b" "a" ⟨1⟩)),
      .op (.edit (.newVariable ⟨1⟩ none)), .op (.edit (.importing ⟨1, 0⟩ "a" "b" ⟨0⟩)),
      .op (.edit (.newVariable ⟨1⟩ none)),
      .op (.edit (.define ⟨2, 0⟩ (some "c") ["Generators"] .first)),
      .op (.edit (.newVariable ⟨0⟩ (some "watch"))), .op (.edit (.importing ⟨3, 0⟩ "c" "d" ⟨1⟩)),
      .op .settle, .op (.value ⟨0⟩ "a")]
    let g := Act.applyAll start acts
    Act.ValidAll start acts ∧
      (∀ s v, g.vars.get? s = some v → v.rule.Satisfies Body.Unfailing) ∧
      nested 5 [] ⟨3, 0⟩ g = some (g.evaluate ⟨3, 0⟩) ∧
      (g.AcyclicFrom ⟨3, 0⟩ ∧ g.ClosedFrom ⟨3, 0⟩) ∧
      ¬ (g.AcyclicFrom ⟨0, 0⟩ ∧ g.ClosedFrom ⟨0, 0⟩) := by
  intro start acts g
  have hvalid : Act.ValidAll start acts := by decide +kernel
  have hbodies : ∀ s v, g.vars.get? s = some v → v.rule.Satisfies Body.Unfailing := by
    refine rules_applyAll _ _ acts hvalid ?_
    simp only [acts, List.forall_mem_cons, List.not_mem_nil, false_imp_iff, implies_true, and_true]
    exact ⟨trivial, trivial, trivial, trivial, trivial, trivial, trivial, Body.unfailing_first, trivial,
      trivial, trivial, trivial⟩
  have hends := evaluate_ends { host := () } 2 acts hvalid
  have hok : (g.evaluate ⟨3, 0⟩).1.isOk = true := by decide +kernel
  have hcircular : (g.evaluate ⟨0, 0⟩).1.isOk = false := by decide +kernel
  have hsize : g.vars.size + 1 ≤ 5 := by decide +kernel
  have hlive : (g.vars.get? ⟨0, 0⟩).isSome = true := by decide +kernel
  refine ⟨hvalid, hbodies, (hends ⟨3, 0⟩).1 5 hsize, ?_, fun hclear => ?_⟩
  · refine (((hends ⟨3, 0⟩).2 hbodies).mp ?_).2
    cases hresult : (g.evaluate ⟨3, 0⟩).1 with
    | ok value => exact ⟨value, rfl⟩
    | error fault =>
        rw [hresult] at hok
        cases hok
  · obtain ⟨value, hvalue⟩ := ((hends ⟨0, 0⟩).2 hbodies).mpr ⟨Option.isSome_iff_exists.mp hlive, hclear⟩
    have hvalue : (g.evaluate ⟨0, 0⟩).1 = .ok value := hvalue
    rw [hvalue] at hcircular
    cases hcircular

end Graph

end CellGraph
