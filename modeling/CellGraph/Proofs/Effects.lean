import CellGraph.Proofs.Graph.Acts
import CellGraph.Proofs.Mutables

/-!
# Effects on mutables

A local body computes from its inputs and from the contents of the mutables among them, and may set these
mutables and no others (`Body.Local`). In what order it looks and sets does not matter: what it does to a
heap is a plan made from the contents that it finds.

Versions only go up, and as long as the version of a mutable is the same, so is its content
(`Heap.Grows`). So a run that has left the versions as they were has set nothing to anything new
(`Heap.same_of_assignAll`), and the same plan carried out again does nothing at all
(`Heap.assignAll_eq_self`).
-/

namespace CellGraph

variable {σ : Type}

theorem Value.Below.mono {m n : Nat} (hmn : m ≤ n) {value : Value} (h : value.Below m) :
    value.Below n := by
  cases value with
  | mutable r => exact Nat.lt_of_lt_of_le h hmn
  | undefined | data _ | intrinsic _ => trivial

/-- A result that is not one of the mutables from place `n` on. -/
def BelowResult (n : Nat) (result : Except Fault Value) : Prop :=
  ∀ value, result = .ok value → value.Below n

theorem BelowResult.mono {m n : Nat} (hmn : m ≤ n) {result : Except Fault Value}
    (h : BelowResult m result) : BelowResult n result :=
  fun value hvalue => (h value hvalue).mono hmn

theorem belowResult_error (n : Nat) (fault : Fault) : BelowResult n (.error fault) := by
  rintro value ⟨⟩

/-! ## Heaps -/

namespace Heap

/-- All that the mutables contain is in the heap. -/
def Grounded (h : Heap) : Prop :=
  ∀ r, (h.content r).Below h.cells.size

/-- The second heap is a later state of the first: versions have not gone down, and where a version is the
same, so is the content. -/
structure Grows (h h' : Heap) : Prop where
  size : h.cells.size ≤ h'.cells.size
  version : ∀ r, h.version r ≤ h'.version r
  content : ∀ r, r.index < h.cells.size → h'.version r = h.version r → h'.content r = h.content r

theorem grows_refl (h : Heap) : h.Grows h :=
  ⟨Nat.le_refl _, fun _ => Nat.le_refl _, fun _ _ _ => rfl⟩

theorem Grows.trans {h₁ h₂ h₃ : Heap} (h₁₂ : h₁.Grows h₂) (h₂₃ : h₂.Grows h₃) : h₁.Grows h₃ where
  size := Nat.le_trans h₁₂.size h₂₃.size
  version r := Nat.le_trans (h₁₂.version r) (h₂₃.version r)
  content r hr hversion := by
    -- the version in between is squeezed
    have hfirst := h₁₂.version r
    have hlast := h₂₃.version r
    have hsize := h₁₂.size
    rw [h₂₃.content r (by omega) (by omega), h₁₂.content r hr (by omega)]

theorem grows_of_extends {h h' : Heap} (hsize : h.cells.size ≤ h'.cells.size) (hext : h.Extends h') :
    h.Grows h' where
  size := hsize
  version r := Nat.le_of_eq (hext.version r).symm
  content r hr _ := by
    have hcell : h.cells[r.index]? = some h.cells[r.index] := Array.getElem?_eq_getElem hr
    simp [content, hcell, hext.cells hcell]

theorem grows_alloc (h : Heap) (initial : Value) : h.Grows (h.alloc initial).2 :=
  grows_of_extends (by simp [alloc]) (h.extends_alloc initial)

theorem grows_assign (h : Heap) (r : Ref) (value : Value) : h.Grows (h.assign r value).2 := by
  rcases h.assign_cases r value with hself | ⟨hr, hsame⟩
  · rw [hself]
    exact h.grows_refl
  · refine ⟨Nat.le_of_eq (h.size_assign r value).symm, fun other => ?_, fun other _ hversion => ?_⟩
    · rw [version_assign_of_differs hr hsame]
      split
      · next hother =>
          rw [hother]
          omega
      · exact Nat.le_refl _
    · rw [version_assign_of_differs hr hsame] at hversion
      rw [content_assign_of_differs hr hsame]
      split at hversion
      · next hother =>
          rw [hother] at hversion
          omega
      · next hother => rw [if_neg hother]

theorem Grounded.assign {h : Heap} (hh : h.Grounded) (r : Ref) {value : Value}
    (hvalue : value.Below h.cells.size) : (h.assign r value).2.Grounded := by
  rcases h.assign_cases r value with hself | ⟨hr, hsame⟩
  · rwa [hself]
  · intro other
    rw [content_assign_of_differs hr hsame, size_assign]
    split
    · exact hvalue
    · exact hh other

theorem Grounded.alloc {h : Heap} (hh : h.Grounded) {initial : Value}
    (hinitial : initial.Below h.cells.size) : (h.alloc initial).2.Grounded := by
  have hsize : h.cells.size ≤ (h.alloc initial).2.cells.size := (h.grows_alloc initial).size
  intro r
  refine Value.Below.mono hsize ?_
  simp only [Heap.alloc, content, Array.getElem?_push]
  split
  · exact hinitial
  · exact hh r

/-- Sets mutables, one after the other. -/
def assignAll (h : Heap) (sets : List (Ref × Value)) : Heap :=
  sets.foldl (fun h set => (h.assign set.1 set.2).2) h

theorem assignAll_cons (h : Heap) (set : Ref × Value) (sets : List (Ref × Value)) :
    h.assignAll (set :: sets) = (h.assign set.1 set.2).2.assignAll sets := rfl

theorem grows_assignAll (h : Heap) (sets : List (Ref × Value)) : h.Grows (h.assignAll sets) := by
  induction sets generalizing h with
  | nil => exact h.grows_refl
  | cons set sets ih => exact (h.grows_assign set.1 set.2).trans (ih _)

theorem Grounded.assignAll {h : Heap} (hh : h.Grounded) {sets : List (Ref × Value)}
    (hsets : ∀ set ∈ sets, set.2.Below h.cells.size) : (h.assignAll sets).Grounded := by
  induction sets generalizing h with
  | nil => exact hh
  | cons set sets ih =>
      rw [List.forall_mem_cons] at hsets
      refine ih (hh.assign set.1 hsets.1) ?_
      rw [size_assign]
      exact hsets.2

/-- If the mutables that were set have the version of before, each was set to what it contained. -/
theorem same_of_assignAll {h : Heap} {sets : List (Ref × Value)}
    (hsets : ∀ set ∈ sets, set.1.index < h.cells.size ∧
      (h.assignAll sets).version set.1 = h.version set.1) :
    ∀ set ∈ sets, (h.content set.1).same set.2 = true := by
  induction sets with
  | nil => simp
  | cons set sets ih =>
      rw [List.forall_mem_cons] at hsets ⊢
      have hfirst : (h.content set.1).same set.2 = true := by
        by_contra hsame
        rw [Bool.not_eq_true] at hsame
        -- the version went up, and later assignments do not bring it down
        have hlater := ((h.assign set.1 set.2).2.grows_assignAll sets).version set.1
        rw [version_assign_of_differs hsets.1.1 hsame, if_pos rfl] at hlater
        have hversion := hsets.1.2
        rw [assignAll_cons] at hversion
        omega
      refine ⟨hfirst, ih ?_⟩
      rw [assignAll_cons, assign_of_same hfirst] at hsets
      exact hsets.2

/-- To set mutables to what they contain changes nothing. -/
theorem assignAll_eq_self {h : Heap} {sets : List (Ref × Value)}
    (hsets : ∀ set ∈ sets, (h.content set.1).same set.2 = true) : h.assignAll sets = h := by
  induction sets with
  | nil => rfl
  | cons set sets ih =>
      rw [List.forall_mem_cons] at hsets
      rw [assignAll_cons, assign_of_same hsets.1, ih hsets.2]

end Heap

/-! ## Local bodies -/

/-- What a body does: its result, and what it sets mutables to, in order. -/
structure Deed where
  result : Except Fault Value
  sets : List (Ref × Value) := []

/-- Deeds are the same that have the same result and set the same mutables to the same values. -/
structure Deed.Same (a b : Deed) : Prop where
  result : sameResult a.result b.result = true
  sets : List.Forall₂ (fun s t => s.1 = t.1 ∧ s.2.same t.2 = true) a.sets b.sets

/-- A deed that mentions no mutable from place `n` on. -/
structure Deed.Below (n : Nat) (deed : Deed) : Prop where
  result : BelowResult n deed.result
  sets : ∀ set ∈ deed.sets, set.2.Below n

namespace Body

/-- A body that carries out a plan. The plan is made from the inputs and from the contents of the mutables
among them, respecting equality of values; it sets none but these mutables. It can mention mutables that
are inputs or contents, and those below place `known`, which are there when the body is made. -/
structure Follows (plan : List Value → (Ref → Value) → Deed) (known : Nat) (body : Body σ) : Prop where
  lasting : body.Lasting
  result : ∀ inputs world, (body inputs world).result = (plan inputs world.heap.content).result
  heap : ∀ inputs world, (body inputs world).world.heap =
    world.heap.assignAll (plan inputs world.heap.content).sets
  own : ∀ inputs contents, ∀ set ∈ (plan inputs contents).sets, .mutable set.1 ∈ inputs
  respects : ∀ {inputs inputs' : List Value} {contents contents' : Ref → Value},
    List.Forall₂ (fun x y => x.same y = true) inputs inputs' →
    (∀ r, .mutable r ∈ inputs → (contents r).same (contents' r) = true) →
    (plan inputs contents).Same (plan inputs' contents')
  grounded : ∀ {inputs : List Value} {contents : Ref → Value} {n : Nat}, known ≤ n →
    (∀ x ∈ inputs, x.Below n) → (∀ r, .mutable r ∈ inputs → (contents r).Below n) →
    (plan inputs contents).Below n

/-- A body whose result and effects are a function of its inputs and of the contents of the mutables among
them, and that sets no other mutables. -/
def Local (known : Nat) (body : Body σ) : Prop :=
  ∃ plan, body.Follows plan known

/-- A body that makes a mutable, or a local one. -/
def Tame (known : Nat) (body : Body σ) : Prop :=
  body = mutableWrapper ∨ body.Local known

theorem Local.mono {m n : Nat} (hmn : m ≤ n) {body : Body σ} (h : body.Local m) : body.Local n := by
  obtain ⟨plan, hplan⟩ := h
  exact ⟨plan, hplan.lasting, hplan.result, hplan.heap, hplan.own, hplan.respects,
    fun hn => hplan.grounded (Nat.le_trans hmn hn)⟩

theorem Tame.mono {m n : Nat} (hmn : m ≤ n) {body : Body σ} (h : body.Tame m) : body.Tame n :=
  h.imp_right (Local.mono hmn)

theorem Tame.lasting {n : Nat} {body : Body σ} (h : body.Tame n) : body.Lasting := by
  rcases h with rfl | ⟨plan, hplan⟩
  · exact quiet_mutableWrapper.lasting
  · exact hplan.lasting

theorem local_constant {known : Nat} {value : Value} (hvalue : value.Below known) :
    Local known (.constant value : Body σ) := by
  refine ⟨fun _ _ => { result := .ok value }, fun _ _ => rfl, fun _ _ => rfl, fun _ _ => rfl, ?_, ?_, ?_⟩
  · simp
  · exact fun _ _ => ⟨sameResult_refl _, .nil⟩
  · intro inputs contents n hn _ _
    refine ⟨?_, by simp⟩
    rintro _ ⟨⟩
    exact hvalue.mono hn

/-- What a body shows that is given a value: the content of a mutable, or else the value itself. -/
def shown (contents : Ref → Value) : Value → Value
  | .mutable r => contents r
  | other => other

theorem shown_same {contents contents' : Ref → Value} {x y : Value} (hxy : x.same y = true)
    (hcontents : ∀ r, x = .mutable r → (contents r).same (contents' r) = true) :
    (shown contents x).same (shown contents' y) = true := by
  cases x with
  | mutable r =>
      cases y with
      | mutable r' =>
          obtain rfl : r = r' := by simpa [Value.same] using hxy
          exact hcontents r rfl
      | undefined | data _ | intrinsic _ => cases hxy
  | undefined | data _ | intrinsic _ => cases y <;> first | exact hxy | cases hxy

theorem below_shown {contents : Ref → Value} {x : Value} {n : Nat} (hx : x.Below n)
    (hcontents : ∀ r, x = .mutable r → (contents r).Below n) : (shown contents x).Below n := by
  cases x with
  | mutable r => exact hcontents r rfl
  | undefined | data _ | intrinsic _ => exact hx

/-- What a body shows that is given values: what it is given alone. -/
def shownAlone (contents : Ref → Value) (inputs : List Value) : Except Fault Value :=
  if inputs.length = 1 then .ok (shown contents (inputs.headD .undefined))
  else .error (.evaluation "expected one mutable input")

theorem shownAlone_same {contents contents' : Ref → Value} {inputs inputs' : List Value}
    (hinputs : List.Forall₂ (fun x y => x.same y = true) inputs inputs')
    (hcontents : ∀ r, .mutable r ∈ inputs → (contents r).same (contents' r) = true) :
    sameResult (shownAlone contents inputs) (shownAlone contents' inputs') = true := by
  cases hinputs with
  | nil => exact sameResult_refl _
  | cons hxy hrest =>
      cases hrest with
      | nil =>
          have hshown := shown_same hxy fun r hr => hcontents r (by simp [hr])
          simpa [shownAlone, sameResult] using hshown
      | cons _ _ => simp [shownAlone, sameResult]

theorem belowResult_shownAlone {contents : Ref → Value} {inputs : List Value} {n : Nat}
    (hinputs : ∀ x ∈ inputs, x.Below n) (hcontents : ∀ r, .mutable r ∈ inputs → (contents r).Below n) :
    BelowResult n (shownAlone contents inputs) := by
  unfold shownAlone
  split
  · next hone =>
      obtain ⟨x, rfl⟩ := List.length_eq_one_iff.mp hone
      have hx : (shown contents x).Below n :=
        below_shown (hinputs x (by simp)) fun r hr => hcontents r (by simp [hr])
      rintro _ ⟨⟩
      exact hx
  · exact belowResult_error _ _

theorem local_mutableValue (known : Nat) : Local known (mutableValue : Body σ) := by
  refine ⟨fun inputs contents => { result := shownAlone contents inputs }, quiet_mutableValue.lasting,
    fun inputs world => ?_, fun inputs world => ?_, by simp, fun hinputs hcontents => ?_,
    fun _ hinputs hcontents => ?_⟩
  · rcases inputs with _ | ⟨x, _ | ⟨y, rest⟩⟩
    · rfl
    · cases x <;> rfl
    · cases x <;> simp [mutableValue, shownAlone]
  · unfold mutableValue
    split <;> rfl
  · exact ⟨shownAlone_same hinputs hcontents, .nil⟩
  · exact ⟨belowResult_shownAlone hinputs hcontents, by simp⟩

/-- What a body sets that is given values: the mutable that it is given alone. -/
def settings (w : Json) : List Value → List (Ref × Value)
  | [.mutable r] => [(r, .data w)]
  | _ => []

theorem settings_same (w : Json) {inputs inputs' : List Value}
    (hinputs : List.Forall₂ (fun x y => x.same y = true) inputs inputs') :
    settings w inputs = settings w inputs' := by
  match inputs, inputs', hinputs with
  | [], [], _ => rfl
  | [x], [y], .cons hxy .nil =>
      cases x with
      | mutable r =>
          cases y with
          | mutable r' =>
              obtain rfl : r = r' := by simpa [Value.same] using hxy
              rfl
          | undefined | data _ | intrinsic _ => cases hxy
      | undefined | data _ | intrinsic _ => cases y <;> first | rfl | cases hxy
  | x :: _ :: _, y :: _ :: _, _ => cases x <;> cases y <;> rfl

theorem local_setting (known : Nat) (w : Json) : Local known (setting w : Body σ) := by
  refine ⟨fun inputs _ => { result := .ok .undefined, sets := settings w inputs },
    (sets_setting w).lasting, fun inputs world => ?_, fun inputs world => ?_, fun inputs _ set hset => ?_,
    fun {inputs inputs'} _ _ hinputs _ => ⟨rfl, ?_⟩, fun {inputs} _ n _ _ _ => ⟨?_, fun set hset => ?_⟩⟩
  · unfold setting
    split <;> rfl
  · match inputs with
    | [] => rfl
    | [x] => cases x <;> rfl
    | x :: _ :: _ => cases x <;> rfl
  · unfold settings at hset
    split at hset
    · simpa using congrArg Prod.fst (List.mem_singleton.mp hset)
    · cases hset
  · show List.Forall₂ _ (settings w inputs) (settings w inputs')
    rw [settings_same w hinputs]
    exact List.forall₂_same.mpr fun set _ => ⟨rfl, Value.same_refl _⟩
  · rintro _ ⟨⟩
    trivial
  · unfold settings at hset
    split at hset
    · rw [List.mem_singleton.mp hset]
      trivial
    · cases hset

end Body

/-- A body that makes a mutable leads to a later state, and the mutable is there. -/
theorem Body.grows_mutableWrapper {world : World σ} (hheap : world.heap.Grounded) {inputs : List Value}
    (hinputs : ∀ x ∈ inputs, x.Below world.heap.cells.size) :
    world.heap.Grows (mutableWrapper inputs world).world.heap ∧
      (mutableWrapper inputs world).world.heap.Grounded ∧
      BelowResult (mutableWrapper inputs world).world.heap.cells.size
        (mutableWrapper inputs world).result := by
  unfold mutableWrapper
  split
  · next initial =>
      refine ⟨world.heap.grows_alloc initial, hheap.alloc (hinputs initial (by simp)), ?_⟩
      rintro value ⟨⟩
      simp [Heap.alloc, Value.Below]
  · exact ⟨world.heap.grows_refl, hheap, belowResult_error _ _⟩

/-! ## Rules -/

namespace Rule

variable {rule : Rule σ} {known : Nat}

/-- A tame rule leads to a later state of the mutables, and neither what it returns nor what it leaves in
them is anything but a mutable that is there. -/
theorem grows_world (hrule : rule.Satisfies (Body.Tame known)) {world : World σ}
    (hknown : known ≤ world.heap.cells.size) (hheap : world.heap.Grounded)
    {results : List (Except Fault Value)}
    (hresults : ∀ result ∈ results, BelowResult world.heap.cells.size result) :
    world.heap.Grows (rule.world world results).heap ∧ (rule.world world results).heap.Grounded ∧
      BelowResult (rule.world world results).heap.cells.size (rule.result world results) := by
  cases rule with
  | undefined =>
      refine ⟨world.heap.grows_refl, hheap, ?_⟩
      rintro value ⟨⟩
      trivial
  | importing name source =>
      refine ⟨world.heap.grows_refl, hheap, ?_⟩
      cases results with
      | nil => exact belowResult_error _ _
      | cons result results => exact hresults result List.mem_cons_self
  | define body =>
      simp only [Rule.world, Rule.result]
      cases hinputs : results.mapM id with
      | error fault => exact ⟨world.heap.grows_refl, hheap, belowResult_error _ fault⟩
      | ok inputs =>
          have hbelow : ∀ x ∈ inputs, x.Below world.heap.cells.size := by
            intro x hx
            rw [eq_map_ok_of_mapM_id hinputs] at hresults
            exact hresults (.ok x) (List.mem_map_of_mem hx) x rfl
          simp only [Except.bind]
          rcases hrule body rfl with rfl | ⟨plan, hplan⟩
          · exact Body.grows_mutableWrapper hheap hbelow
          · have hdeed := hplan.grounded hknown hbelow fun r _ => hheap r
            rw [hplan.heap, hplan.result]
            have hgrows := world.heap.grows_assignAll (plan inputs world.heap.content).sets
            exact ⟨hgrows, hheap.assignAll hdeed.sets, hdeed.result.mono hgrows.size⟩

/-- To apply a local rule once more, to results that are the same, gives the same and sets nothing, provided
that the first time has left the versions of its mutables as they were and that their contents are still
the same. -/
theorem rerun (hrule : rule.Satisfies (Body.Local known)) {before now : World σ}
    {olds news : List (Except Fault Value)}
    (hsame : List.Forall₂ (fun a b => sameResult a b = true) olds news)
    (hsettled : ∀ r, .ok (.mutable r) ∈ olds → r.index < before.heap.cells.size ∧
      (rule.world before olds).heap.version r = before.heap.version r ∧
      now.heap.content r = before.heap.content r) :
    sameResult (rule.result now news) (rule.result before olds) = true ∧
      (rule.world now news).heap = now.heap := by
  cases rule with
  | undefined => exact ⟨rfl, rfl⟩
  | importing name source =>
      refine ⟨?_, rfl⟩
      cases hsame with
      | nil => exact sameResult_refl _
      | cons hab _ => exact sameResult_symm hab
  | define body =>
      obtain ⟨plan, hplan⟩ := hrule body rfl
      simp only [Rule.world, Rule.result] at hsettled ⊢
      rcases mapM_id_same hsame with ⟨fault, hold, hnew⟩ | ⟨xs, ys, hold, hnew, hinputs⟩
      · rw [hold, hnew]
        exact ⟨sameResult_refl _, rfl⟩
      · rw [hold, eq_map_ok_of_mapM_id hold] at hsettled
        rw [hold, hnew]
        simp only [Except.bind, List.mem_map, Except.ok.injEq, exists_eq_right] at hsettled ⊢
        have hdeeds : (plan xs before.heap.content).Same (plan ys now.heap.content) := by
          refine hplan.respects hinputs fun r hr => ?_
          rw [(hsettled r hr).2.2]
          exact Value.same_refl _
        -- the first time every mutable was set to what it contained, and so it is the second time
        have hfirst : ∀ set ∈ (plan xs before.heap.content).sets,
            (before.heap.content set.1).same set.2 = true := by
          refine Heap.same_of_assignAll fun set hset => ?_
          obtain ⟨hr, hversion, -⟩ := hsettled set.1 (hplan.own xs _ set hset)
          rw [hplan.heap] at hversion
          exact ⟨hr, hversion⟩
        rw [hplan.result, hplan.result, hplan.heap]
        refine ⟨sameResult_symm hdeeds.result, Heap.assignAll_eq_self fun set hset => ?_⟩
        obtain ⟨old, hold, href, hvalue⟩ := exists_mem_of_forall₂ hdeeds.sets hset
        rw [← href, (hsettled old.1 (hplan.own xs _ old hold)).2.2]
        exact Value.same_trans (hfirst old hold) hvalue

end Rule

end CellGraph
