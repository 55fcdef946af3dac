import CellGraph.Proofs.Graph.Acts
import CellGraph.Proofs.Graph.Tables

/-!
# Declarations in a row

Acts that set a graph up: each makes a variable, which is registered at once or not at all. The variables
can be read off such acts (`Act.Declares`), and in a graph in which no place has become free they are those
of the graph that the acts lead to, behind the ones that were there (`Act.Declares.toList_vars`).
-/

namespace CellGraph

variable {σ : Type}

namespace Act

/-- Acts that declare variables one after the other, from a place on, and the variables that they declare. -/
inductive Declares : Nat → List (Act σ) → List (Slot × Variable σ) → Prop
  | nil (n : Nat) : Declares n [] []
  | newModule {n : Nat} {acts : List (Act σ)} {places : List (Slot × Variable σ)} :
      Declares n acts places → Declares n (.op (.edit .newModule) :: acts) places
  | assign {n : Nat} {r : Ref} {value : Value} {acts : List (Act σ)} {places : List (Slot × Variable σ)} :
      Declares n acts places → Declares n (.assign r value :: acts) places
  | define {n : Nat} {home : ModuleId} {observer name : Option String} {inputs : List String}
      {body : Body σ} {acts : List (Act σ)} {places : List (Slot × Variable σ)} :
      Declares (n + 1) acts places →
      Declares n (.op (.edit (.newVariable home observer)) ::
          .op (.edit (.define ⟨n, 0⟩ name inputs body)) :: acts)
        ((⟨n, 0⟩, { home, observer, name, inputs, rule := .define body }) :: places)
  | importing {n : Nat} {home source : ModuleId} {observer : Option String} {name newName : String}
      {acts : List (Act σ)} {places : List (Slot × Variable σ)} :
      Declares (n + 1) acts places →
      Declares n (.op (.edit (.newVariable home observer)) ::
          .op (.edit (.importing ⟨n, 0⟩ name newName source)) :: acts)
        ((⟨n, 0⟩, { home, observer, name := some newName, rule := .importing name source }) :: places)
  | bare {n : Nat} {home : ModuleId} {observer : Option String} {acts : List (Act σ)}
      {places : List (Slot × Variable σ)} :
      Declares (n + 1) acts places →
      Declares n (.op (.edit (.newVariable home observer)) :: acts) ((⟨n, 0⟩, { home, observer }) :: places)

end Act

namespace Graph

variable {g h : Graph σ} {n : Nat}

/-- A variable that is stored in a tidy graph gets the next place. -/
theorem Tidy.toList_of_insert (hg : g.Tidy) (hn : g.vars.entries.size = n) {v : Variable σ}
    (hvars : h.vars = (g.vars.insert v).2) :
    h.vars.toList = g.vars.toList ++ [(⟨n, 0⟩, v)] ∧ h.vars.entries.size = n + 1 := by
  have hlisted := (Slots.toList_insert hg.full v).1
  rw [hvars]
  rw [Slots.insert_of_full hg.full] at hlisted ⊢
  rw [hlisted, hn]
  exact ⟨rfl, by rw [Array.size_push, hn]⟩

/-- A variable that is made in a tidy graph and registered under its handle, which is the next place. -/
theorem Tidy.register_next (hg : g.Tidy) (hn : g.vars.entries.size = n) {home : ModuleId}
    (hhome : g.HasModule home) (observer name : Option String) (inputs : List String) (rule : Rule σ) :
    let made := (g.newVariable home observer).2
    let h := (made.register ⟨n, 0⟩ name inputs rule).toOption.getD made
    h.Tidy ∧ h.vars.toList = g.vars.toList ++ [(⟨n, 0⟩, { home, observer, name, inputs, rule := rule })] ∧
      h.vars.entries.size = n + 1 := by
  obtain ⟨h, hregister, hvars, htidy, -⟩ := hg.register_newVariable hhome observer name inputs rule
  have hslot : (g.newVariable home observer).1 = ⟨n, 0⟩ := by
    rw [newVariable, Slots.insert_of_full hg.full, hn]
  rw [hslot] at hregister
  dsimp only
  rw [hregister]
  exact ⟨htidy, hg.toList_of_insert hn hvars⟩

end Graph

namespace Act

open CellGraph.Graph

/-- The variables of a graph after declarations. -/
theorem Declares.toList_vars {n : Nat} {acts : List (Act σ)} {places : List (Slot × Variable σ)}
    (h : Declares n acts places) {g : Graph σ} (hg : g.Tidy) (hn : g.vars.entries.size = n)
    (hvalid : ValidAll g acts) : (applyAll g acts).vars.toList = g.vars.toList ++ places := by
  induction h generalizing g with
  | nil => exact (List.append_nil _).symm
  | newModule _ ih => exact ih (hg.newModule ⟨0⟩).tidy hn hvalid.2
  | assign _ ih => exact ih ⟨hg.sound.congr rfl rfl, hg.full⟩ hn hvalid.2
  | @define n home observer name inputs body acts places _ ih =>
      obtain ⟨hhome, -, hrest⟩ := hvalid
      obtain ⟨htidy, hlisted, hsize⟩ := hg.register_next hn hhome observer name inputs (.define body)
      rw [List.append_cons, ← hlisted]
      exact ih htidy hsize hrest
  | @importing n home source observer name newName acts places _ ih =>
      obtain ⟨hhome, -, hrest⟩ := hvalid
      obtain ⟨htidy, hlisted, hsize⟩ :=
        hg.register_next hn hhome observer (some newName) [] (.importing name source)
      rw [List.append_cons, ← hlisted]
      exact ih htidy hsize hrest
  | @bare n home observer acts places _ ih =>
      obtain ⟨hhome, hrest⟩ := hvalid
      obtain ⟨hlisted, hsize⟩ := hg.toList_of_insert hn (h := (g.newVariable home observer).2) rfl
      rw [List.append_cons, ← hlisted]
      exact ih (hg.of_insert (hg.sound.newVariable hhome observer) rfl) hsize hrest

/-- The variables of a graph that is set up by declarations alone. -/
theorem Declares.toList_vars_start {acts : List (Act σ)} {places : List (Slot × Variable σ)}
    (h : Declares 0 acts places) (world : World σ) (maxPasses : Nat)
    (hvalid : ValidAll { world, maxPasses } acts) :
    (applyAll { world, maxPasses } acts).vars.toList = places :=
  h.toList_vars ⟨sound_start world maxPasses, rfl⟩ rfl hvalid

/-- Edits as acts. -/
theorem applyAll_edits (g : Graph σ) (edits : List (Edit σ)) :
    applyAll g (edits.map fun edit => .op (.edit edit)) = Edit.applyAll g edits :=
  List.foldl_map

end Act

end CellGraph
