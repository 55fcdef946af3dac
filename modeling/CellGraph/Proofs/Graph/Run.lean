import CellGraph.Graph.Evaluation
import CellGraph.Proofs.Graph.Names

/-!
# Runs

A run is a finite list of operations on one graph, in any order. Six of them change what the graph is
made of (`Edit`); the other two evaluate (`Op`). An operation that fails leaves the graph as it is,
and the modules that an operation names were made before (`Valid`).

An invariant of runs is given by what each primitive change keeps (`Edit.Closed`). A derivation is a
new module and one `addNamed` for each of its names, so it needs no case of its own.
-/

namespace CellGraph

variable {σ : Type}

/-- The operations that change what a graph is made of. -/
inductive Edit (σ : Type) where
  | newModule
  | newVariable (m : ModuleId) (observer : Option String)
  | define (slot : Slot) (name : Option String) (inputs : List String) (body : Body σ)
  | importing (slot : Slot) (name newName : String) (source : ModuleId)
  | delete (slot : Slot)
  | derive (m : ModuleId) (injections : List Binding) (source : ModuleId)

namespace Edit

/-- The graph after an operation; one that fails leaves the graph as it is. -/
def apply (g : Graph σ) : Edit σ → Graph σ
  | newModule => g.newModule.2
  | newVariable m observer => (g.newVariable m observer).2
  | define slot name inputs body => (g.define slot name inputs body).toOption.getD g
  | importing slot name newName source => (g.importing slot name newName source).toOption.getD g
  | delete slot => g.delete slot
  | derive m injections source => (g.derive m injections source).2

/-- The modules that an operation names were made before. -/
def Valid (g : Graph σ) : Edit σ → Prop
  | newVariable m _ => g.HasModule m
  | importing _ _ _ source => g.HasModule source
  | derive m _ source => g.HasModule m ∧ g.HasModule source
  | _ => True

instance (g : Graph σ) : DecidablePred (Valid g)
  | newVariable m _ => inferInstanceAs (Decidable (g.HasModule m))
  | importing _ _ _ source => inferInstanceAs (Decidable (g.HasModule source))
  | derive m _ source => inferInstanceAs (Decidable (g.HasModule m ∧ g.HasModule source))
  | newModule | define _ _ _ _ | delete _ => isTrue trivial

/-- The graph after operations, one after the other. -/
def applyAll (g : Graph σ) (edits : List (Edit σ)) : Graph σ :=
  edits.foldl apply g

/-- Each operation is valid in the graph that it is applied to. -/
def ValidAll (g : Graph σ) : List (Edit σ) → Prop
  | [] => True
  | edit :: edits => edit.Valid g ∧ ValidAll (edit.apply g) edits

instance decidableValidAll : (g : Graph σ) → (edits : List (Edit σ)) → Decidable (ValidAll g edits)
  | _, [] => isTrue trivial
  | g, edit :: edits => @instDecidableAnd _ _ _ (decidableValidAll (edit.apply g) edits)

/-- The body that an operation brings in, if any, satisfies a predicate. -/
def Satisfies (Q : Body σ → Prop) : Edit σ → Prop
  | define _ _ _ body => Q body
  | _ => True

end Edit

/-- The operations on a graph. -/
inductive Op (σ : Type) where
  | edit (edit : Edit σ)
  | settle
  | value (m : ModuleId) (name : String)

namespace Op

/-- The graph after an operation. -/
def apply (g : Graph σ) : Op σ → Graph σ
  | edit e => e.apply g
  | settle => g.settle.2
  | value m name => (g.value m name).2

/-- The modules that an operation names were made before. -/
def Valid (g : Graph σ) : Op σ → Prop
  | edit e => e.Valid g
  | settle => True
  | value m _ => g.HasModule m

instance (g : Graph σ) : DecidablePred (Valid g)
  | edit e => inferInstanceAs (Decidable (e.Valid g))
  | settle => isTrue trivial
  | value m _ => inferInstanceAs (Decidable (g.HasModule m))

/-- The graph after operations, one after the other. -/
def applyAll (g : Graph σ) (ops : List (Op σ)) : Graph σ :=
  ops.foldl apply g

/-- Each operation is valid in the graph that it is applied to. -/
def ValidAll (g : Graph σ) : List (Op σ) → Prop
  | [] => True
  | op :: ops => op.Valid g ∧ ValidAll (op.apply g) ops

instance decidableValidAll : (g : Graph σ) → (ops : List (Op σ)) → Decidable (ValidAll g ops)
  | _, [] => isTrue trivial
  | g, op :: ops => @instDecidableAnd _ _ _ (decidableValidAll (op.apply g) ops)

/-- The body that an operation brings in, if any, satisfies a predicate. -/
def Satisfies (Q : Body σ → Prop) : Op σ → Prop
  | edit e => e.Satisfies Q
  | _ => True

end Op

namespace Graph

/-! ## Derivation in steps -/

/-- What a derived module is to hold under a name: the inputs and the rule. -/
structure Holding (σ : Type) where
  name : String
  inputs : List String
  rule : Rule σ

/-- What the module derived from `m` is to hold, in the order in which it is added. -/
def holdings (g : Graph σ) (m : ModuleId) (injections : List Binding) (source : ModuleId) :
    List (Holding σ) :=
  (g.named m).map (fun (name, v) => ⟨name, v.inputs, v.rule⟩) ++
    injections.map fun b => ⟨b.newName, [], .importing b.name source⟩

/-- Adds a variable for each holding. -/
def addAll (g : Graph σ) (m : ModuleId) (holdings : List (Holding σ)) : Graph σ :=
  holdings.foldl (fun g h => g.addNamed m h.name h.inputs h.rule) g

/-- A derivation is a new module and then one variable for each holding. -/
theorem derive_eq (g : Graph σ) (m : ModuleId) (injections : List Binding) (source : ModuleId) :
    g.derive m injections source =
      (g.newModule.1, g.newModule.2.addAll g.newModule.1 (g.holdings m injections source)) := by
  simp only [derive, addAll, holdings, List.foldl_append, List.foldl_map]

/-- Every variable that has a name in a module is stored in the graph. -/
theorem get?_of_mem_named {g : Graph σ} {m : ModuleId} {name : String} {v : Variable σ}
    (h : (name, v) ∈ g.named m) : ∃ slot, g.vars.get? slot = some v ∧ g.lookup m name = some slot := by
  unfold named at h
  rw [List.mem_filterMap] at h
  obtain ⟨⟨slot, w⟩, hw, hname⟩ := h
  rw [Slots.mem_toList] at hw
  cases hown : w.name with
  | none => simp [hown] at hname
  | some own =>
      simp only [hown] at hname
      split at hname
      · next hlookup =>
          obtain ⟨rfl, rfl⟩ := Prod.mk.inj (Option.some.inj hname)
          exact ⟨slot, hw, hlookup⟩
      · cases hname

end Graph

/-! ## Invariants -/

/-- A rule whose body, if it has one, satisfies a predicate. -/
def Rule.Satisfies (Q : Body σ → Prop) (rule : Rule σ) : Prop :=
  ∀ body, rule = .define body → Q body

namespace Edit

/-- What a predicate on graphs has to survive to hold after every operation whose bodies satisfy `Q`. -/
structure Closed (P : Graph σ → Prop) (Q : Body σ → Prop) : Prop where
  newModule : ∀ {g : Graph σ}, P g → P g.newModule.2
  newVariable : ∀ {g : Graph σ} {m : ModuleId} {observer : Option String}, P g → g.HasModule m →
    P (g.newVariable m observer).2
  register : ∀ {g h : Graph σ} {slot : Slot} {name : Option String} {inputs : List String}
    {rule : Rule σ}, P g → rule.Satisfies Q → g.register slot name inputs rule = .ok h → P h
  delete : ∀ {g : Graph σ} {slot : Slot}, P g → P (g.delete slot)
  addNamed : ∀ {g : Graph σ} {m : ModuleId} {name : String} {inputs : List String} {rule : Rule σ},
    P g → g.HasModule m → rule.Satisfies Q → P (g.addNamed m name inputs rule)
  rules : ∀ {g : Graph σ} {slot : Slot} {v : Variable σ}, P g → g.vars.get? slot = some v →
    v.rule.Satisfies Q

variable {P : Graph σ → Prop} {Q : Body σ → Prop}

theorem Closed.addAll (hP : Closed P Q) {m : ModuleId} (holdings : List (Graph.Holding σ))
    (hrules : ∀ h ∈ holdings, h.rule.Satisfies Q) {g : Graph σ} (hg : P g) (hm : g.HasModule m) :
    P (g.addAll m holdings) := by
  induction holdings generalizing g with
  | nil => exact hg
  | cons h holdings ih =>
      refine ih (fun h' hh' => hrules h' (List.mem_cons_of_mem _ hh')) ?_ ?_
      · exact hP.addNamed hg hm (hrules h List.mem_cons_self)
      · exact (Graph.hasModule_addNamed ..).mpr hm

/-- What a registration keeps, a registration that may fail keeps too. -/
theorem Closed.register_getD (hP : Closed P Q) {g : Graph σ} (hg : P g) (slot : Slot)
    (name : Option String) (inputs : List String) {rule : Rule σ} (hrule : rule.Satisfies Q) :
    P ((g.register slot name inputs rule).toOption.getD g) := by
  cases hregister : g.register slot name inputs rule with
  | error fault => exact hg
  | ok h => exact hP.register hg hrule hregister

theorem Closed.apply (hP : Closed P Q) {g : Graph σ} (hg : P g) (edit : Edit σ)
    (hvalid : edit.Valid g) (hbody : edit.Satisfies Q) : P (edit.apply g) := by
  cases edit with
  | newModule => exact hP.newModule hg
  | newVariable m observer => exact hP.newVariable hg hvalid
  | define slot name inputs body =>
      refine hP.register_getD hg slot name inputs ?_
      intro own hown
      cases hown
      exact hbody
  | importing slot name newName source =>
      refine hP.register_getD hg slot (some newName) [] ?_
      intro own hown
      cases hown
  | delete slot => exact hP.delete hg
  | derive m injections source =>
      simp only [Edit.apply, Graph.derive_eq]
      refine hP.addAll _ ?_ (hP.newModule hg) (Graph.hasModule_newModule_self g)
      intro h hh
      rcases List.mem_append.mp hh with hcopy | hinjected
      · obtain ⟨⟨name, v⟩, hnamed, rfl⟩ := List.mem_map.mp hcopy
        obtain ⟨slot, hv, -⟩ := Graph.get?_of_mem_named hnamed
        exact hP.rules hg hv
      · obtain ⟨b, -, rfl⟩ := List.mem_map.mp hinjected
        intro own hown
        cases hown

theorem Closed.applyAll (hP : Closed P Q) (edits : List (Edit σ)) {g : Graph σ} (hg : P g)
    (hvalid : ValidAll g edits) (hbodies : ∀ edit ∈ edits, edit.Satisfies Q) :
    P (applyAll g edits) := by
  induction edits generalizing g with
  | nil => exact hg
  | cons edit edits ih =>
      rw [List.forall_mem_cons] at hbodies
      exact ih (hP.apply hg edit hvalid.1 hbodies.1) hvalid.2 hbodies.2

end Edit

namespace Graph

section Evaluating

variable {P : Graph σ → Prop}
  (heval : ∀ {g : Graph σ} (depth : Nat) (path : List Slot) (slot : Slot), P g →
    P (evaluateWithin depth path slot g).2)
include heval

/-- What an evaluation keeps, a pass keeps. -/
theorem evaluateAll_invariant (slots : List Slot) {g : Graph σ} (hg : P g) :
    P (g.evaluateAll slots) := by
  induction slots generalizing g with
  | nil => exact hg
  | cons slot slots ih => exact ih (heval g.vars.size [] slot hg)

/-- What an evaluation keeps, settling keeps, whether it comes to an end or not. -/
theorem settleWithin_invariant (passes : Nat) {g : Graph σ} (hg : P g) :
    P (settleWithin passes g).2 := by
  induction passes generalizing g with
  | zero => exact hg
  | succ passes ih =>
      have hpass : P g.pass := evaluateAll_invariant heval g.roots hg
      simp only [settleWithin]
      split
      · exact hpass
      · exact ih hpass

/-- What an evaluation keeps, reading a value keeps. -/
theorem value_invariant (m : ModuleId) (name : String) {g : Graph σ} (hg : P g) :
    P (g.value m name).2 := by
  have hsettled : P g.settle.2 := settleWithin_invariant heval g.maxPasses hg
  unfold value
  rcases hsettle : g.settle with ⟨fault | ⟨⟩, h⟩
  · rwa [hsettle] at hsettled
  · rw [hsettle] at hsettled
    simp only
    split
    · exact hsettled
    · exact heval _ _ _ hsettled

end Evaluating

end Graph

/-- A predicate that every edit and every evaluation keeps holds after every run. -/
theorem Op.invariant {P : Graph σ → Prop} {Q : Body σ → Prop} (hP : Edit.Closed P Q)
    (heval : ∀ {g : Graph σ} (depth : Nat) (path : List Slot) (slot : Slot), P g →
      P (Graph.evaluateWithin depth path slot g).2)
    (ops : List (Op σ)) {g : Graph σ} (hg : P g) (hvalid : ValidAll g ops)
    (hbodies : ∀ op ∈ ops, op.Satisfies Q) : P (applyAll g ops) := by
  induction ops generalizing g with
  | nil => exact hg
  | cons op ops ih =>
      obtain ⟨hop, hops⟩ := hvalid
      refine ih ?_ hops fun op' hop' => hbodies op' (List.mem_cons_of_mem _ hop')
      have hbody := hbodies op List.mem_cons_self
      cases op with
      | edit edit => exact hP.apply hg edit hop hbody
      | settle => exact Graph.settleWithin_invariant heval g.maxPasses hg
      | value m name => exact Graph.value_invariant heval m name hg

end CellGraph
