import CellGraph.Proofs.Effects
import Mathlib.Data.List.Perm.Subperm
import Mathlib.Logic.Relation

/-!
# Mutables inside mutables

The content of a mutable may be another mutable. A value shows as data by following the contents to the end,
and where no mutable contains itself (`Founded`), the end comes before each mutable has been passed twice
(`jsonWithin_of_le`): how many there are besides does not matter.

Whether the data is still what it was at an earlier moment depends on all mutables on the way. If neither the
first content has changed since nor the version of any mutable inside it, it is (`toJson_eq_of_unchanged`).
-/

namespace CellGraph

namespace Heap

/-- The content of the first mutable is the second. -/
def Contains (h : Heap) (r s : Ref) : Prop :=
  h.content r = .mutable s

/-- No mutable contains itself, directly or through others. -/
def Founded (h : Heap) : Prop :=
  ∀ r, ¬ Relation.TransGen h.Contains r r

/-- The mutable is the value, or is found inside it. -/
def Reaches (h : Heap) (x : Value) (s : Ref) : Prop :=
  ∃ r, x = .mutable r ∧ Relation.ReflTransGen h.Contains r s

/-- The value is a mutable, and the other one is found inside it. -/
def Inside (h : Heap) (x : Value) (s : Ref) : Prop :=
  ∃ r, x = .mutable r ∧ Relation.TransGen h.Contains r s

variable {h : Heap}

/-- Mutables that contain only earlier ones do not contain themselves. -/
theorem founded_of_below (hbelow : ∀ i < h.cells.size, (h.content ⟨i⟩).Below i) : h.Founded := by
  have hstep : ∀ {r s}, h.Contains r s → s.index < r.index := by
    intro r s hrs
    by_cases hr : r.index < h.cells.size
    · have hcontent := hbelow r.index hr
      rw [show h.content ⟨r.index⟩ = .mutable s from hrs] at hcontent
      exact hcontent
    · have hnone : h.cells[r.index]? = none := Array.getElem?_eq_none (by omega)
      rw [Contains, content, hnone] at hrs
      cases hrs
  have hfalls : ∀ {r s}, Relation.TransGen h.Contains r s → s.index < r.index := by
    intro r s hrs
    induction hrs with
    | single hrs => exact hstep hrs
    | tail _ hst ih => exact Nat.lt_trans (hstep hst) ih
  exact fun r hr => Nat.lt_irrefl _ (hfalls hr)

theorem grounded_of_below (hbelow : ∀ i < h.cells.size, (h.content ⟨i⟩).Below i) : h.Grounded := by
  intro r
  by_cases hr : r.index < h.cells.size
  · exact (hbelow r.index hr).mono (Nat.le_of_lt hr)
  · have hnone : h.cells[r.index]? = none := Array.getElem?_eq_none (by omega)
    rw [content, hnone]
    trivial

theorem reaches_self (h : Heap) (r : Ref) : h.Reaches (.mutable r) r :=
  ⟨r, rfl, .refl⟩

/-- What is found in the content of a mutable is found inside the mutable. -/
theorem Reaches.inside {r s : Ref} (hs : h.Reaches (h.content r) s) : h.Inside (.mutable r) s := by
  obtain ⟨t, ht, hts⟩ := hs
  exact ⟨r, rfl, .head' ht hts⟩

theorem Inside.reaches {x : Value} {s : Ref} (hs : h.Inside x s) : h.Reaches x s := by
  obtain ⟨r, hr, hrs⟩ := hs
  exact ⟨r, hr, hrs.to_reflTransGen⟩

/-! ## How far to follow -/

/-- Different places below a bound are at most as many. -/
theorem length_le_of_index_lt {path : List Ref} {n : Nat} (hnodup : path.Nodup)
    (hpath : ∀ s ∈ path, s.index < n) : path.length ≤ n := by
  have hindices : (path.map Ref.index).Nodup :=
    hnodup.map fun r s hrs => by cases r; cases s; exact congrArg Ref.mk hrs
  have hsubset : path.map Ref.index ⊆ List.range n := by
    intro i hi
    obtain ⟨s, hs, rfl⟩ := List.mem_map.mp hi
    exact List.mem_range.mpr (hpath s hs)
  have hlength := (hindices.subperm hsubset).length_le
  rwa [List.length_map, List.length_range] at hlength

/-- A mutable that is on no way to itself is passed once, so it is enough to follow as many mutables as there
are places that have not been passed. -/
theorem jsonWithin_of_path (hfounded : h.Founded) {n fuel : Nat} {path : List Ref} {x : Value}
    (hnodup : path.Nodup) (hpath : ∀ s ∈ path, s.index < n)
    (hway : ∀ s ∈ path, ∀ t, h.Reaches x t → Relation.TransGen h.Contains s t)
    (hx : ∀ t, h.Reaches x t → t.index < n) (hfuel : n ≤ path.length + fuel) {more : Nat}
    (hmore : fuel ≤ more) : h.jsonWithin more x = h.jsonWithin fuel x := by
  induction fuel generalizing path x more with
  | zero =>
      cases x with
      | mutable r =>
          -- the path would have passed more different places than there are
          have hr : r ∉ path := fun hr => hfounded r (hway r hr r (h.reaches_self r))
          have hlonger := length_le_of_index_lt (List.nodup_cons.mpr ⟨hr, hnodup⟩)
            (List.forall_mem_cons.mpr ⟨hx r (h.reaches_self r), hpath⟩)
          rw [List.length_cons] at hlonger
          omega
      | undefined | data _ | intrinsic _ => cases more <;> rfl
  | succ fuel ih =>
      obtain ⟨more, rfl⟩ : ∃ rest, more = rest + 1 := ⟨more - 1, by omega⟩
      cases x with
      | mutable r =>
          have hr : r ∉ path := fun hr => hfounded r (hway r hr r (h.reaches_self r))
          refine ih (List.nodup_cons.mpr ⟨hr, hnodup⟩)
            (List.forall_mem_cons.mpr ⟨hx r (h.reaches_self r), hpath⟩) ?_
            (fun t ht => hx t ht.inside.reaches) (by rw [List.length_cons]; omega) (by omega)
          refine List.forall_mem_cons.mpr ⟨fun t ht => ?_, fun s hs t ht => hway s hs t ht.inside.reaches⟩
          obtain ⟨_, ⟨⟩, hrt⟩ := ht.inside
          exact hrt
      | undefined | data _ | intrinsic _ => rfl

/-- It is enough to follow as many mutables as there are places that can be come to. -/
theorem jsonWithin_of_le (hfounded : h.Founded) {n : Nat} {x : Value}
    (hx : ∀ t, h.Reaches x t → t.index < n) {more : Nat} (hmore : n ≤ more) :
    h.jsonWithin more x = h.jsonWithin n x :=
  jsonWithin_of_path hfounded List.nodup_nil (by simp) (by simp) hx (by simp) hmore

/-! ## What shows -/

theorem toJson_same (h : Heap) {x y : Value} (hxy : x.same y = true) :
    (h.toJson x).same (h.toJson y) = true := by
  have hwithin : ∀ fuel, (h.jsonWithin fuel x).same (h.jsonWithin fuel y) = true := by
    intro fuel
    cases x with
    | mutable r =>
        cases y with
        | mutable s =>
            obtain rfl : r = s := by simpa [Value.same] using hxy
            exact Json.same_refl _
        | undefined | data _ | intrinsic _ => cases hxy
    | data a =>
        cases y with
        | data b =>
            cases fuel <;> exact hxy
        | undefined | mutable _ | intrinsic _ => cases hxy
    | intrinsic a =>
        cases y with
        | intrinsic b =>
            obtain rfl : a = b := by simpa [Value.same] using hxy
            exact Json.same_refl _
        | undefined | mutable _ | data _ => cases hxy
    | undefined =>
        cases y with
        | undefined => exact Json.same_refl _
        | data _ | mutable _ | intrinsic _ => cases hxy
  exact hwithin h.cells.size

/-- Heaps that agree on the contents of all mutables that are come to show the same. -/
theorem jsonWithin_congr {h' : Heap} {fuel : Nat} {x : Value}
    (hsame : ∀ s, h.Reaches x s → h'.content s = h.content s) :
    h'.jsonWithin fuel x = h.jsonWithin fuel x := by
  induction fuel generalizing x with
  | zero => cases x <;> rfl
  | succ fuel ih =>
      cases x with
      | mutable r =>
          have hr := hsame r (h.reaches_self r)
          calc h'.jsonWithin (fuel + 1) (.mutable r) = h'.jsonWithin fuel (h.content r) := by
                rw [jsonWithin, hr]
            _ = h.jsonWithin fuel (h.content r) := ih fun s hs => hsame s hs.inside.reaches
      | undefined | data _ | intrinsic _ => rfl

/-- What a value shows is what it showed at an earlier moment, provided that its content is still that of then
and no mutable inside it has changed. -/
theorem toJson_eq_of_unchanged {before : Heap} (hgrows : before.Grows h) (hgrounded : before.Grounded)
    (hfounded : h.Founded) {x : Value} (hx : x.Below before.cells.size)
    (houter : ∀ r, x = .mutable r → h.content r = before.content r)
    (hinside : ∀ s, h.Inside x s → h.version s = before.version s) : h.toJson x = before.toJson x := by
  have hreaches : ∀ s, h.Reaches x s → s.index < before.cells.size ∧ h.content s = before.content s := by
    rintro s ⟨r, rfl, hrs⟩
    induction hrs with
    | refl => exact ⟨hx, houter r rfl⟩
    | @tail s t hrs hst ih =>
        have hindex : t.index < before.cells.size := by
          have hbelow := hgrounded s
          rw [← ih.2, show h.content s = .mutable t from hst] at hbelow
          exact hbelow
        exact ⟨hindex, hgrows.content t hindex (hinside t ⟨r, rfl, .tail' hrs hst⟩)⟩
  calc h.toJson x = h.jsonWithin before.cells.size x :=
        jsonWithin_of_le hfounded (fun s hs => (hreaches s hs).1) hgrows.size
    _ = before.toJson x := (jsonWithin_congr fun s hs => (hreaches s hs).2.symm).symm

/-! ## Lawful changes -/

/-- The second heap comes from the first by making mutables and setting them. -/
inductive Evolves : Heap → Heap → Prop where
  | refl (h : Heap) : Evolves h h
  | alloc {h h' : Heap} {initial : Value} (hinitial : initial.Below h.cells.size)
      (hrest : Evolves (h.alloc initial).2 h') : Evolves h h'
  | assign {h h' : Heap} {r : Ref} {value : Value} (hvalue : value.Below h.cells.size)
      (hrest : Evolves (h.assign r value).2 h') : Evolves h h'

theorem Evolves.trans {h₁ h₂ h₃ : Heap} (h₁₂ : h₁.Evolves h₂) (h₂₃ : h₂.Evolves h₃) : h₁.Evolves h₃ := by
  induction h₁₂ with
  | refl h => exact h₂₃
  | alloc hinitial _ ih => exact .alloc hinitial (ih h₂₃)
  | assign hvalue _ ih => exact .assign hvalue (ih h₂₃)

theorem Evolves.grows {h h' : Heap} (hh : h.Evolves h') : h.Grows h' := by
  induction hh with
  | refl h => exact h.grows_refl
  | alloc _ _ ih => exact (grows_alloc _ _).trans ih
  | assign _ _ ih => exact (grows_assign _ _ _).trans ih

theorem Evolves.grounded {h h' : Heap} (hh : h.Evolves h') (hgrounded : h.Grounded) : h'.Grounded := by
  induction hh with
  | refl h => exact hgrounded
  | alloc hinitial _ ih => exact ih (hgrounded.alloc hinitial)
  | assign hvalue _ ih => exact ih (hgrounded.assign _ hvalue)

end Heap

end CellGraph
