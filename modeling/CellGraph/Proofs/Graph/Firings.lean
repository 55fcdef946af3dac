import CellGraph.Proofs.Graph.Acts
import CellGraph.Proofs.Graph.Assignment

/-!
# Runs of rules

A graph counts the runs of its rules but does not say which they were. Here they are listed, in order, each
with the variable whose rule it was and the world that it was run in. The lists follow evaluation step by
step: a conclusion that finds nothing kept for its stamps is one run, and every other step is none
(`firingOf`). There are as many as the graph counts (`counts_applyAll`).

What holds of each evaluation together with its list, and goes over from two steps in a row to both, holds of
every operation that evaluates (`op_traced`).
-/

namespace CellGraph

variable {σ : Type}

/-- A run of the rule of a variable. -/
structure Firing (σ : Type) where
  slot : Slot
  /-- The world that the rule was run in. -/
  world : World σ

namespace Graph

/-- A way to list the runs of an evaluation. -/
abbrev Recorder (σ : Type) := Slot → Graph σ → List (Firing σ)

/-- The runs of a conclusion: one, unless something is kept for the stamps. -/
def firingOf (g : Graph σ) (slot : Slot) (stamps : List Stamp) : List (Firing σ) :=
  if (g.cached? slot stamps).isSome then [] else [{ slot, world := g.world }]

/-- The runs while names are read. -/
def readFirings (eval : Evaluator σ) (record : Recorder σ) :
    List (ModuleId × String) → Graph σ → List (Firing σ)
  | [], _ => []
  | first :: reads, g =>
    ((g.lookup first.1 first.2).map fun slot => record slot g).getD [] ++
      readFirings eval record reads (read eval first.1 first.2 g).2

/-- The runs of an evaluation on a path. -/
def firingsWithin : (depth : Nat) → (path : List Slot) → Recorder σ
  | 0, _, _, _ => []
  | depth + 1, path, slot, g =>
    if slot ∈ path then []
    else ((g.vars.get? slot).map fun v =>
      let mid := readEach (evaluateWithin depth (slot :: path)) v.reads g
      readFirings (evaluateWithin depth (slot :: path)) (firingsWithin depth (slot :: path)) v.reads g ++
        mid.2.firingOf slot mid.1).getD []

/-- The runs of an evaluation. -/
def firings (g : Graph σ) (slot : Slot) : List (Firing σ) :=
  firingsWithin g.vars.size [] slot g

/-- The runs of evaluations, one after the other. -/
def firingsAll (g : Graph σ) : List Slot → List (Firing σ)
  | [] => []
  | slot :: slots => g.firings slot ++ (g.evaluate slot).2.firingsAll slots

/-- The runs of settling. -/
def settleFirings : (passes : Nat) → Graph σ → List (Firing σ)
  | 0, _ => []
  | passes + 1, g =>
    g.firingsAll g.roots ++ if g.pass.runs = g.runs then [] else settleFirings passes g.pass

/-- The runs of reading a value. -/
def valueFirings (g : Graph σ) (m : ModuleId) (name : String) : List (Firing σ) :=
  g.settleFirings g.maxPasses ++
    if g.settle.1.isOk then ((g.settle.2.lookup m name).map g.settle.2.firings).getD [] else []

end Graph

/-- The runs of an operation. -/
def Op.firings (g : Graph σ) : Op σ → List (Firing σ)
  | edit _ => []
  | settle => g.settleFirings g.maxPasses
  | value m name => g.valueFirings m name

/-- The runs of operations, one after the other. -/
def Op.firingsAll (g : Graph σ) : List (Op σ) → List (Firing σ)
  | [] => []
  | op :: ops => op.firings g ++ firingsAll (op.apply g) ops

namespace Graph

/-! ## Evaluation in steps -/

theorem firingOf_hit {g : Graph σ} {slot : Slot} {stamps : List Stamp} {result : Except Fault Value}
    (h : g.cached? slot stamps = some result) : g.firingOf slot stamps = [] := by
  rw [firingOf, h, Option.isSome_some, if_pos rfl]

theorem firingOf_miss {g : Graph σ} {slot : Slot} {stamps : List Stamp}
    (h : g.cached? slot stamps = none) : g.firingOf slot stamps = [{ slot, world := g.world }] := by
  rw [firingOf, h]
  rfl

theorem firingsWithin_mem {path : List Slot} {slot : Slot} (hmem : slot ∈ path) (depth : Nat)
    (g : Graph σ) : firingsWithin depth path slot g = [] := by
  cases depth with
  | zero => rfl
  | succ depth => rw [firingsWithin, if_pos hmem]

theorem firingsWithin_dead {slot : Slot} {g : Graph σ} (hdead : g.vars.get? slot = none) (depth : Nat)
    (path : List Slot) : firingsWithin depth path slot g = [] := by
  cases depth with
  | zero => rfl
  | succ depth =>
      rw [firingsWithin, hdead]
      split <;> rfl

theorem firingsWithin_succ {path : List Slot} {slot : Slot} {g : Graph σ} {v : Variable σ}
    (hmem : slot ∉ path) (hv : g.vars.get? slot = some v) (depth : Nat) :
    firingsWithin (depth + 1) path slot g =
      readFirings (evaluateWithin depth (slot :: path)) (firingsWithin depth (slot :: path)) v.reads g ++
        (readEach (evaluateWithin depth (slot :: path)) v.reads g).2.firingOf slot
          (readEach (evaluateWithin depth (slot :: path)) v.reads g).1 := by
  rw [firingsWithin, if_neg hmem, hv]
  rfl

section Relations

variable {R : Graph σ → List (Firing σ) → Graph σ → Prop} (hrefl : ∀ g, R g [] g)
  (htrans : ∀ {g₁ g₂ g₃ s t}, R g₁ s g₂ → R g₂ t g₃ → R g₁ (s ++ t) g₃)
include hrefl htrans

/-- What holds of each evaluation and its runs, holds of reading. -/
theorem readEach_traced {eval : Evaluator σ} {record : Recorder σ}
    (heval : ∀ slot g, R g (record slot g) (eval slot g).2) (reads : List (ModuleId × String))
    (g : Graph σ) : R g (readFirings eval record reads g) (readEach eval reads g).2 := by
  induction reads generalizing g with
  | nil => exact hrefl g
  | cons first reads ih =>
      refine htrans ?_ (ih _)
      unfold read
      cases g.lookup first.1 first.2 with
      | none => exact hrefl g
      | some slot => exact heval slot g

variable (heval : ∀ slot g, R g (g.firings slot) (g.evaluate slot).2)
include heval

theorem evaluateAll_traced (slots : List Slot) (g : Graph σ) :
    R g (g.firingsAll slots) (g.evaluateAll slots) := by
  induction slots generalizing g with
  | nil => exact hrefl g
  | cons slot slots ih => exact htrans (heval slot g) (ih _)

theorem settleWithin_traced (passes : Nat) (g : Graph σ) :
    R g (settleFirings passes g) (settleWithin passes g).2 := by
  induction passes generalizing g with
  | zero => exact hrefl g
  | succ passes ih =>
      have hpass : R g (g.firingsAll g.roots) g.pass := evaluateAll_traced hrefl htrans heval g.roots g
      simp only [settleFirings, settleWithin]
      split
      · rw [List.append_nil]
        exact hpass
      · exact htrans hpass (ih g.pass)

theorem value_traced (m : ModuleId) (name : String) (g : Graph σ) :
    R g (g.valueFirings m name) (g.value m name).2 := by
  have hsettle : R g (g.settleFirings g.maxPasses) g.settle.2 :=
    settleWithin_traced hrefl htrans heval g.maxPasses g
  unfold valueFirings value
  rcases hout : g.settle with ⟨fault | ⟨⟩, h⟩ <;> rw [hout] at hsettle
  · exact htrans hsettle (hrefl h)
  · refine htrans hsettle ?_
    simp only [Except.isOk, Except.toBool, if_true]
    cases h.lookup m name with
    | none => exact hrefl h
    | some slot => exact heval slot h

/-- So it holds of every operation that evaluates. -/
theorem op_traced {op : Op σ} (hop : op.Evaluates) (g : Graph σ) : R g (op.firings g) (op.apply g) := by
  cases op with
  | edit edit => exact absurd hop id
  | settle => exact settleWithin_traced hrefl htrans heval g.maxPasses g
  | value m name => exact value_traced hrefl htrans heval m name g

theorem applyAll_traced (ops : List (Op σ)) (hops : ∀ op ∈ ops, op.Evaluates) (g : Graph σ) :
    R g (Op.firingsAll g ops) (Op.applyAll g ops) := by
  induction ops generalizing g with
  | nil => exact hrefl g
  | cons op ops ih =>
      rw [List.forall_mem_cons] at hops
      exact htrans (op_traced hrefl htrans heval hops.1 g) (ih hops.2 _)

end Relations

/-! ## Counting -/

/-- As many runs have been counted between two graphs as a list has. -/
def Counts (g : Graph σ) (fired : List (Firing σ)) (h : Graph σ) : Prop :=
  h.runs = g.runs + fired.length

theorem counts_refl (g : Graph σ) : g.Counts [] g := rfl

theorem Counts.trans {g₁ g₂ g₃ : Graph σ} {s t : List (Firing σ)} (h₁₂ : g₁.Counts s g₂)
    (h₂₃ : g₂.Counts t g₃) : g₁.Counts (s ++ t) g₃ := by
  unfold Counts at *
  rw [List.length_append]
  omega

theorem counts_conclude (g : Graph σ) (slot : Slot) (rule : Rule σ) (stamps : List Stamp) :
    g.Counts (g.firingOf slot stamps) (g.conclude slot rule stamps).2 := by
  cases hcached : g.cached? slot stamps with
  | some result =>
      rw [conclude_hit hcached, firingOf_hit hcached]
      exact counts_refl g
  | none =>
      rw [conclude_miss hcached, firingOf_miss hcached]
      have hrun : (g.run rule stamps).2.runs = g.runs + 1 :=
        run_invariant (P := fun h => h.runs = g.runs + 1) (fun slot hh => (delete_runs _ slot).trans hh)
          (fun _ hh => hh) rfl rule stamps
      cases hv : (g.run rule stamps).2.vars.get? slot with
      | none =>
          rw [keep_dead hv]
          exact hrun
      | some v =>
          obtain ⟨log, hkeep⟩ := keep_live hv stamps (g.run rule stamps).1
          rw [hkeep]
          exact hrun

theorem counts_evaluateWithin (depth : Nat) (path : List Slot) (slot : Slot) (g : Graph σ) :
    g.Counts (firingsWithin depth path slot g) (evaluateWithin depth path slot g).2 := by
  induction depth generalizing path slot g with
  | zero =>
      rw [evaluateWithin_zero]
      exact counts_refl g
  | succ depth ih =>
      by_cases hmem : slot ∈ path
      · rw [evaluateWithin_mem hmem, firingsWithin_mem hmem]
        exact counts_refl g
      · cases hv : g.vars.get? slot with
        | none =>
            rw [evaluateWithin_dead hmem hv, firingsWithin_dead hv]
            exact counts_refl g
        | some v =>
            rw [evaluateWithin_succ hmem hv, firingsWithin_succ hmem hv]
            have hreads := readEach_traced counts_refl Counts.trans (ih (slot :: path)) v.reads g
            exact hreads.trans (counts_conclude _ slot v.rule _)

/-- The graph counts the runs that are listed. -/
theorem counts_applyAll (ops : List (Op σ)) (hops : ∀ op ∈ ops, op.Evaluates) (g : Graph σ) :
    g.Counts (Op.firingsAll g ops) (Op.applyAll g ops) :=
  applyAll_traced counts_refl Counts.trans
    (fun slot g => counts_evaluateWithin g.vars.size [] slot g) ops hops g

end Graph

end CellGraph
