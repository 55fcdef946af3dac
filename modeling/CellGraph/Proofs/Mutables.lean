import CellGraph.Extraction.Desugar
import CellGraph.Proofs.Extraction
import CellGraph.Proofs.Graph.Orderly

/-!
# Mutables

What bodies may do to the mutables. A quiet body makes new ones at most (`Body.Quiet`), a setting one
assigns to the mutable that it is given (`Body.Sets`). To assign what is there already changes nothing;
anything else raises the version of the one mutable (`Heap.assign_cases`). A mutable that starts with one value and is
assigned another, as often as one likes, has only two states (`Heap.Assignable`), and its version tells
them apart.

The three cells of a declared mutable have a written body and two generated ones. The compiler finds the
generated ones again by their text, whatever the mutable is called, unless the name has an opening
parenthesis (`compileCell_helperCell`).
-/

namespace CellGraph

variable {σ : Type}

/-! ## Heaps -/

namespace Heap

/-- The second heap has the mutables of the first as they were, and those that it has beside were never
set. -/
structure Extends (h h' : Heap) : Prop where
  cells : ∀ {i : Nat} {cell : Mutable}, h.cells[i]? = some cell → h'.cells[i]? = some cell
  version : ∀ r, h'.version r = h.version r

theorem extends_refl (h : Heap) : h.Extends h :=
  ⟨fun hcell => hcell, fun _ => rfl⟩

theorem Extends.versionOf {h h' : Heap} (hext : h.Extends h') : h'.versionOf = h.versionOf := by
  funext value
  cases value with
  | mutable r => exact hext.version r
  | undefined | data _ | intrinsic _ => rfl

/-- A new mutable is in its place. -/
theorem get?_alloc (h : Heap) (initial : Value) :
    (h.alloc initial).2.cells[(h.alloc initial).1.index]? = some { content := initial, version := 0 } :=
  Array.getElem?_push_size

theorem extends_alloc (h : Heap) (initial : Value) : h.Extends (h.alloc initial).2 where
  cells {i cell} hcell := by
    have hlt : i < h.cells.size := (Array.getElem?_eq_some_iff.mp hcell).1
    simp only [alloc]
    rwa [Array.getElem?_push_lt hlt, ← Array.getElem?_eq_getElem hlt]
  version r := by
    simp only [version, alloc, Array.getElem?_push]
    split
    · next hnew => simp [hnew]
    · rfl

/-! ### Assignments -/

/-- To assign what is there already changes nothing. -/
theorem assign_of_same {h : Heap} {r : Ref} {value : Value} (hsame : (h.content r).same value = true) :
    (h.assign r value).2 = h := by
  unfold assign
  cases hcell : h.cells[r.index]? with
  | none => rfl
  | some cell =>
      have hcontent : cell.content.same value = true := by simpa [content, hcell] using hsame
      simp [hcontent]

/-- An assignment that is out of bounds changes nothing. -/
theorem assign_of_le {h : Heap} {r : Ref} {value : Value} (hr : h.cells.size ≤ r.index) :
    (h.assign r value).2 = h := by
  simp [assign, Array.getElem?_eq_none hr]

@[simp]
theorem size_assign (h : Heap) (r : Ref) (value : Value) :
    (h.assign r value).2.cells.size = h.cells.size := by
  unfold assign
  cases h.cells[r.index]? with
  | none => rfl
  | some cell =>
      simp only
      split <;> simp

section Differs

variable {h : Heap} {r : Ref} {value : Value} (hr : r.index < h.cells.size)
  (hsame : (h.content r).same value = false)
include hr hsame

/-- To assign something else changes the one mutable, and its version goes up. -/
theorem get?_assign_of_differs (i : Nat) : (h.assign r value).2.cells[i]? =
    if i = r.index then some { content := value, version := h.version r + 1 } else h.cells[i]? := by
  have hcell : h.cells[r.index]? = some h.cells[r.index] := Array.getElem?_eq_getElem hr
  have hcontent : h.cells[r.index].content.same value = false := by
    simpa [content, hcell] using hsame
  simp only [assign, version, hcell, hcontent, Option.map_some, Option.getD_some,
    Bool.false_eq_true, if_false, Array.getElem?_setIfInBounds]
  by_cases hi : i = r.index
  · simp [hi, hr]
  · rw [if_neg (Ne.symm hi), if_neg hi]

theorem content_assign_of_differs (other : Ref) :
    (h.assign r value).2.content other = if other = r then value else h.content other := by
  unfold content
  rw [get?_assign_of_differs hr hsame]
  by_cases hother : other = r
  · simp [hother]
  · have hindex : other.index ≠ r.index := fun hindex => hother (congrArg Ref.mk hindex)
    rw [if_neg hindex, if_neg hother]

theorem version_assign_of_differs (other : Ref) :
    (h.assign r value).2.version other = if other = r then h.version r + 1 else h.version other := by
  unfold version
  rw [get?_assign_of_differs hr hsame]
  by_cases hother : other = r
  · simp [hother, version]
  · have hindex : other.index ≠ r.index := fun hindex => hother (congrArg Ref.mk hindex)
    rw [if_neg hindex, if_neg hother]

end Differs

/-- What an assignment comes to: nothing, or another content and a higher version. -/
theorem assign_cases (h : Heap) (r : Ref) (value : Value) : (h.assign r value).2 = h ∨
    r.index < h.cells.size ∧ (h.content r).same value = false := by
  by_cases hr : r.index < h.cells.size
  · cases hsame : (h.content r).same value with
    | true => exact Or.inl (assign_of_same hsame)
    | false => exact Or.inr ⟨hr, rfl⟩
  · exact Or.inl (assign_of_le (by omega))

/-! ### A mutable that is assigned one value -/

/-- A mutable with the first value after the second has been assigned to it. -/
def assigned (v w : Json) : Mutable :=
  if v.same w then { content := .data v, version := 0 } else { content := .data w, version := 1 }

/-- The mutable has its first value, or the second has been assigned to it. -/
def Assignable (h : Heap) (r : Ref) (v w : Json) : Prop :=
  h.cells[r.index]? = some { content := .data v, version := 0 } ∨
    h.cells[r.index]? = some (assigned v w)

section Assignable

variable {h h' : Heap} {r : Ref} {v w : Json}

theorem same_assigned (v w : Json) : (assigned v w).content.same (.data w) = true := by
  unfold assigned
  split
  · assumption
  · exact w.same_refl

theorem Assignable.extends (hh : h.Assignable r v w) (hext : h.Extends h') : h'.Assignable r v w :=
  hh.imp hext.cells hext.cells

/-- To assign to the mutable again changes nothing. -/
theorem assign_assigned (hcell : h.cells[r.index]? = some (assigned v w)) :
    (h.assign r (.data w)).2 = h := by
  refine assign_of_same ?_
  simp [content, hcell, same_assigned]

/-- To assign to the mutable brings it to its last state. -/
theorem get?_assign (hh : h.Assignable r v w) :
    (h.assign r (.data w)).2.cells[r.index]? = some (assigned v w) := by
  rcases hh with hcell | hcell
  · by_cases hsame : v.same w = true
    · have hlast : assigned v w = { content := .data v, version := 0 } := if_pos hsame
      rw [← hlast] at hcell
      rwa [assign_assigned hcell]
    · have hlast : assigned v w = { content := .data w, version := 1 } := if_neg hsame
      have hdiffers : (h.content r).same (.data w) = false := by
        simpa [content, hcell, Value.same] using hsame
      have hlt : r.index < h.cells.size := (Array.getElem?_eq_some_iff.mp hcell).1
      rw [get?_assign_of_differs hlt hdiffers, if_pos rfl, hlast]
      simp [version, hcell]
  · rwa [assign_assigned hcell]

/-- The version tells which content the mutable has. -/
theorem Assignable.content_eq (hh : h.Assignable r v w) (hh' : h'.Assignable r v w)
    (hversion : h'.version r = h.version r) : h'.content r = h.content r := by
  by_cases hsame : v.same w = true
  · have hlast : assigned v w = { content := .data v, version := 0 } := if_pos hsame
    rw [Assignable, hlast, or_self] at hh hh'
    simp [content, hh, hh']
  · have hlast : assigned v w = { content := .data w, version := 1 } := if_neg hsame
    rw [Assignable, hlast] at hh hh'
    rcases hh with hcell | hcell <;> rcases hh' with hcell' | hcell' <;>
      simp_all [content, version]

end Assignable

end Heap

/-! ## Bodies -/

namespace Body

/-- A body that deletes nothing and sets no mutable; it may make new ones. -/
structure Quiet (body : Body σ) : Prop where
  lasting : body.Lasting
  heap : ∀ inputs (world : World σ), world.heap.Extends (body inputs world).world.heap

/-- A body that deletes nothing and, given a mutable alone, sets it to a value and no other mutable to
anything. -/
structure Sets (w : Json) (body : Body σ) : Prop where
  lasting : body.Lasting
  heap : ∀ r (world : World σ), r.index < world.heap.cells.size →
    (world.heap.assign r (.data w)).2.Extends (body [.mutable r] world).world.heap

/-- The body that sets the mutable that it is given to a value. -/
def setting (w : Json) : Body σ := fun inputs world =>
  match inputs with
  | [.mutable r] =>
    { result := .ok .undefined, world := { world with heap := (world.heap.assign r (.data w)).2 } }
  | _ => { result := .ok .undefined, world }

theorem sets_setting (w : Json) : Sets w (setting w : Body σ) where
  lasting inputs world := by
    unfold setting
    split <;> rfl
  heap r world _ := Heap.extends_refl _

/-- A function of its inputs is quiet. -/
theorem Functional.quiet {body : Body σ} (hbody : body.Functional) : body.Quiet where
  lasting := hbody.deleted
  heap inputs world := by
    rw [hbody.world]
    exact world.heap.extends_refl

theorem quiet_mutableValue : Quiet (mutableValue : Body σ) where
  lasting inputs world := by
    unfold mutableValue
    split <;> rfl
  heap inputs world := by
    have hworld : (mutableValue inputs world).world = world := by
      unfold mutableValue
      split <;> rfl
    rw [hworld]
    exact world.heap.extends_refl

theorem quiet_mutableWrapper : Quiet (mutableWrapper : Body σ) where
  lasting inputs world := by
    unfold mutableWrapper
    split <;> rfl
  heap inputs world := by
    unfold mutableWrapper
    split
    · exact world.heap.extends_alloc _
    · exact world.heap.extends_refl

end Body

/-- A rule whose body is quiet sets no mutable. -/
theorem Rule.extends_world {rule : Rule σ} (hrule : rule.Satisfies Body.Quiet) (world : World σ)
    (results : List (Except Fault Value)) :
    world.heap.Extends (rule.world world results).heap := by
  cases rule with
  | undefined => exact world.heap.extends_refl
  | importing name source => exact world.heap.extends_refl
  | define body =>
      simp only [Rule.world]
      split
      · exact (hrule body rfl).heap _ world
      · exact world.heap.extends_refl

/-- Where no mutable was set, results have the versions of before. -/
theorem Graph.versionOf_of_extends {g h : Graph σ} (hext : g.world.heap.Extends h.world.heap) :
    h.versionOf = g.versionOf := by
  funext result
  cases result with
  | ok value => exact congrFun hext.versionOf value
  | error fault => rfl

/-- A conclusion of a variable whose body is quiet changes no version. -/
theorem Graph.versionOf_conclude {g : Graph σ} {slot : Slot} {v : Variable σ}
    (hv : g.vars.get? slot = some v) (hrule : v.rule.Satisfies Body.Quiet) (stamps : List Stamp) :
    (g.conclude slot v.rule stamps).2.versionOf = g.versionOf := by
  have hlasting : v.rule.Satisfies Body.Lasting := fun body hbody => (hrule body hbody).lasting
  rcases conclude_cases hv hlasting stamps with ⟨cache, -, -, hhit⟩ | ⟨-, hran⟩
  · rw [hhit]
  · refine versionOf_of_extends ?_
    rw [hran.world]
    exact Rule.extends_world hrule g.world _

/-! ## Generated cells -/

namespace Extraction

open Text

/-- The text of a generated function, grouped from the right: the order in which it is read. -/
theorem Helper.codeChars_eq (h : Helper) (name : String) :
    h.codeChars name = FunctionKind.plain.opening ++ ' ' ::
      (functionNameChars (h.nameFront.toList ++ name.toList) ++
        '(' :: (joinWith [',', ' '] (h.parameters.map String.toList) ++ ')' :: ' ' :: h.body.toList)) := by
  simp [Helper.codeChars, FunctionKind.opening]

/-- The text of a generated function is read as a plain function with its parameters and body. -/
theorem Helper.parse?_code [IdentifierTable] (h : Helper) {name : String} (hopen : '(' ∉ name.toList) :
    ∃ own, FunctionText.parse? (h.code name) =
      some { kind := .plain, name := own, parameters := h.parameters, body := h.body } := by
  have htrimmed : trim (functionNameChars (h.nameFront.toList ++ name.toList)) =
      functionNameChars (h.nameFront.toList ++ name.toList) :=
    trim_eq_self not_isBlank_of_mem_functionNameChars
  have hopened : '(' ∉ functionNameChars (h.nameFront.toList ++ name.toList) := by
    refine open_not_mem_functionNameChars fun hmem => ?_
    rcases List.mem_append.mp hmem with hfront | hname
    · revert hfront
      cases h <;> decide
    · exact hopen hname
  have hclose : ')' ∉ joinWith [',', ' '] (h.parameters.map String.toList) := by
    cases h <;> decide
  have hparameters : FunctionText.readParameters?
      (joinWith [',', ' '] (h.parameters.map String.toList)) = some h.parameters := by
    cases h <;> decide
  have hbody : Solid h.body.toList := by
    cases h <;> exact ⟨_, _, rfl, by decide⟩
  refine ⟨String.ofList (functionNameChars (h.nameFront.toList ++ name.toList)), ?_⟩
  rw [FunctionText.parse?, Helper.code, String.toList_ofList, h.codeChars_eq,
    FunctionText.parseChars?_header htrimmed hopened hclose hparameters hbody, String.ofList_toList]

theorem Helper.recognize?_eq (h : Helper) (name : String) :
    recognize? { kind := .plain, name, parameters := h.parameters, body := h.body } = some h := by
  cases h <;> rfl

/-- A generated cell gets the native body, whatever the language of the others. -/
theorem compileCell_helperCell [IdentifierTable] (instantiate : Instantiate σ) (h : Helper) {base : String}
    (hopen : '(' ∉ base.toList) (name : String) (references : List String)
    (hcount : h.parameters.length = references.length) (world : World σ) :
    compileCell instantiate (helperCell name references h base) world = (.ok h.native, world) := by
  obtain ⟨own, hparse⟩ := h.parse?_code hopen
  simp only [compileCell, helperCell, hparse, hcount, ne_eq, not_true, if_false,
    Helper.recognize?_eq]

end Extraction

end CellGraph
