import CellGraph.Graph.Evaluation
import Mathlib.Data.List.Forall2

/-!
# Equality of results is an equivalence

Values are compared by `same`, which is coarser than equality: both zeros are one number. Results,
stamps and lists of stamps are compared through it. Each of these comparisons is reflexive,
symmetric and transitive, and values that are the same have the same version in every heap.
-/

namespace CellGraph

/-- What is paired with the members of a list. -/
theorem exists_mem_of_forall₂ {α β : Type} {R : α → β → Prop} {as : List α} {bs : List β}
    (h : List.Forall₂ R as bs) {b : β} (hb : b ∈ bs) : ∃ a ∈ as, R a b := by
  induction h with
  | nil => cases hb
  | cons hab _ ih =>
      rcases List.mem_cons.mp hb with rfl | hb
      · exact ⟨_, List.mem_cons_self, hab⟩
      · obtain ⟨a, ha, hR⟩ := ih hb
        exact ⟨a, List.mem_cons_of_mem _ ha, hR⟩

/-! ## Numbers -/

namespace Binary64

theorem same_refl (a : Binary64) : a.same a = true := by
  simp [same]

theorem same_symm {a b : Binary64} (h : a.same b = true) : b.same a = true := by
  simp only [same, Bool.and_eq_true, Bool.or_eq_true, beq_iff_eq] at h ⊢
  obtain ⟨hrank, hsign⟩ := h
  exact ⟨hrank.symm, hsign.imp Eq.symm fun hzero => hrank ▸ hzero⟩

theorem same_trans {a b c : Binary64} (hab : a.same b = true) (hbc : b.same c = true) :
    a.same c = true := by
  simp only [same, Bool.and_eq_true, Bool.or_eq_true, beq_iff_eq] at hab hbc ⊢
  obtain ⟨hrank, hsign⟩ := hab
  obtain ⟨hrank', hsign'⟩ := hbc
  refine ⟨hrank.trans hrank', ?_⟩
  rcases hsign with hsign | hzero
  · rcases hsign' with hsign' | hzero'
    · exact Or.inl (hsign.trans hsign')
    · exact Or.inr (hrank ▸ hzero')
  · exact Or.inr hzero

end Binary64

namespace Json.Number

theorem same_refl (a : Number) : a.same a = true := by
  cases a with
  | natural n => simp [same]
  | negative n => simp [same]
  | float x => exact x.same_refl

theorem same_symm {a b : Number} (h : a.same b = true) : b.same a = true := by
  cases a <;> cases b <;> simp_all [same]
  exact Binary64.same_symm h

theorem same_trans {a b c : Number} (hab : a.same b = true) (hbc : b.same c = true) :
    a.same c = true := by
  cases a <;> cases b <;> cases c <;> simp_all [same]
  exact Binary64.same_trans hab hbc

end Json.Number

/-! ## JSON values

Each law goes by recursion on the first value, its items and its fields together, as `same` does. -/

namespace Json

mutual

theorem same_refl : ∀ a : Json, a.same a = true
  | null => rfl
  | bool b => by simp [same]
  | number n => n.same_refl
  | string s => by simp [same]
  | array items => sameItems_refl items
  | object fields => sameFields_refl fields

theorem sameItems_refl : ∀ items : List Json, sameItems items items = true
  | [] => rfl
  | a :: as => by simp [sameItems, same_refl a, sameItems_refl as]

theorem sameFields_refl : ∀ fields : List (String × Json), sameFields fields fields = true
  | [] => rfl
  | (k, a) :: as => by simp [sameFields, same_refl a, sameFields_refl as]

end

mutual

theorem same_symm : ∀ a b : Json, a.same b = true → b.same a = true
  | null, b, h => by cases b <;> simp_all [same]
  | bool x, b, h => by cases b <;> simp_all [same]
  | number n, b, h => by
      cases b <;> simp_all [same]
      exact Number.same_symm h
  | string s, b, h => by cases b <;> simp_all [same]
  | array items, b, h => by
      cases b <;> simp_all [same]
      exact sameItems_symm items _ h
  | object fields, b, h => by
      cases b <;> simp_all [same]
      exact sameFields_symm fields _ h

theorem sameItems_symm : ∀ as bs : List Json, sameItems as bs = true → sameItems bs as = true
  | [], bs, h => by cases bs <;> simp_all [sameItems]
  | a :: as, [], h => by simp [sameItems] at h
  | a :: as, b :: bs, h => by
      simp only [sameItems, Bool.and_eq_true] at h ⊢
      exact ⟨same_symm a b h.1, sameItems_symm as bs h.2⟩

theorem sameFields_symm :
    ∀ as bs : List (String × Json), sameFields as bs = true → sameFields bs as = true
  | [], bs, h => by cases bs <;> simp_all [sameFields]
  | a :: as, [], h => by simp [sameFields] at h
  | (k, a) :: as, (l, b) :: bs, h => by
      simp only [sameFields, Bool.and_eq_true, beq_iff_eq] at h ⊢
      exact ⟨⟨h.1.1.symm, same_symm a b h.1.2⟩, sameFields_symm as bs h.2⟩

end

mutual

theorem same_trans : ∀ a b c : Json, a.same b = true → b.same c = true → a.same c = true
  | null, b, c, hab, hbc => by cases b <;> cases c <;> simp_all [same]
  | bool x, b, c, hab, hbc => by cases b <;> cases c <;> simp_all [same]
  | number n, b, c, hab, hbc => by
      cases b <;> cases c <;> simp_all [same]
      exact Number.same_trans hab hbc
  | string s, b, c, hab, hbc => by cases b <;> cases c <;> simp_all [same]
  | array items, b, c, hab, hbc => by
      cases b <;> cases c <;> simp_all [same]
      exact sameItems_trans items _ _ hab hbc
  | object fields, b, c, hab, hbc => by
      cases b <;> cases c <;> simp_all [same]
      exact sameFields_trans fields _ _ hab hbc

theorem sameItems_trans : ∀ as bs cs : List Json,
    sameItems as bs = true → sameItems bs cs = true → sameItems as cs = true
  | [], bs, cs, hab, hbc => by cases bs <;> cases cs <;> simp_all [sameItems]
  | a :: as, [], cs, hab, hbc => by simp [sameItems] at hab
  | a :: as, b :: bs, [], hab, hbc => by simp [sameItems] at hbc
  | a :: as, b :: bs, c :: cs, hab, hbc => by
      simp only [sameItems, Bool.and_eq_true] at hab hbc ⊢
      exact ⟨same_trans a b c hab.1 hbc.1, sameItems_trans as bs cs hab.2 hbc.2⟩

theorem sameFields_trans : ∀ as bs cs : List (String × Json),
    sameFields as bs = true → sameFields bs cs = true → sameFields as cs = true
  | [], bs, cs, hab, hbc => by cases bs <;> cases cs <;> simp_all [sameFields]
  | a :: as, [], cs, hab, hbc => by simp [sameFields] at hab
  | a :: as, b :: bs, [], hab, hbc => by simp [sameFields] at hbc
  | (k, a) :: as, (l, b) :: bs, (m, c) :: cs, hab, hbc => by
      simp only [sameFields, Bool.and_eq_true, beq_iff_eq] at hab hbc ⊢
      exact ⟨⟨hab.1.1.trans hbc.1.1, same_trans a b c hab.1.2 hbc.1.2⟩,
        sameFields_trans as bs cs hab.2 hbc.2⟩

end

end Json

/-! ## Values -/

namespace Value

theorem same_refl (a : Value) : a.same a = true := by
  cases a with
  | undefined => rfl
  | data json => exact json.same_refl
  | mutable r => simp [same]
  | intrinsic which => simp [same]

theorem same_symm {a b : Value} (h : a.same b = true) : b.same a = true := by
  cases a <;> cases b <;> simp_all [same]
  exact Json.same_symm _ _ h

theorem same_trans {a b c : Value} (hab : a.same b = true) (hbc : b.same c = true) :
    a.same c = true := by
  cases a <;> cases b <;> cases c <;> simp_all [same]
  exact Json.same_trans _ _ _ hab hbc

end Value

/-- Values that are the same have the same version. -/
theorem Heap.versionOf_eq_of_same (h : Heap) {a b : Value} (hab : a.same b = true) :
    h.versionOf a = h.versionOf b := by
  cases a <;> cases b <;> simp_all [Value.same, versionOf]

/-! ## Results and stamps -/

theorem sameResult_refl (a : Except Fault Value) : sameResult a a = true := by
  cases a with
  | ok value => exact value.same_refl
  | error fault => simp [sameResult]

theorem sameResult_symm {a b : Except Fault Value} (h : sameResult a b = true) :
    sameResult b a = true := by
  cases a <;> cases b <;> simp_all [sameResult]
  exact Value.same_symm h

theorem sameResult_trans {a b c : Except Fault Value} (hab : sameResult a b = true)
    (hbc : sameResult b c = true) : sameResult a c = true := by
  cases a <;> cases b <;> cases c <;> simp_all [sameResult]
  exact Value.same_trans hab hbc

/-- A result that is the same as a mutable is that mutable. -/
theorem eq_of_sameResult_mutable {result : Except Fault Value} {r : Ref}
    (h : sameResult result (.ok (.mutable r)) = true) : result = .ok (.mutable r) := by
  rcases result with fault | (_ | _ | _ | _)
  all_goals simp_all [sameResult, Value.same]

/-- Results that are the same have the same version. -/
theorem Graph.versionOf_eq_of_same {σ : Type} (g : Graph σ) {a b : Except Fault Value}
    (hab : sameResult a b = true) : g.versionOf a = g.versionOf b := by
  cases a <;> cases b <;> simp_all [sameResult, versionOf]
  exact Heap.versionOf_eq_of_same _ hab

namespace Stamp

theorem same_symm {a b : Stamp} (h : a.same b = true) : b.same a = true := by
  simp only [same, Bool.and_eq_true, beq_iff_eq] at h ⊢
  exact ⟨sameResult_symm h.1, h.2.symm⟩

theorem same_trans {a b c : Stamp} (hab : a.same b = true) (hbc : b.same c = true) :
    a.same c = true := by
  simp only [same, Bool.and_eq_true, beq_iff_eq] at hab hbc ⊢
  exact ⟨sameResult_trans hab.1 hbc.1, hab.2.trans hbc.2⟩

/-- Lists of stamps are the same when they are so stamp by stamp. -/
theorem sameList_iff {as bs : List Stamp} :
    sameList as bs = true ↔ List.Forall₂ (fun a b => a.same b = true) as bs := by
  induction as generalizing bs with
  | nil => cases bs <;> simp [sameList]
  | cons a as ih => cases bs <;> simp [sameList, ih]

theorem sameList_refl (as : List Stamp) : sameList as as = true := by
  rw [sameList_iff, List.forall₂_same]
  intro a _
  simp [same, sameResult_refl]

theorem sameList_symm {as bs : List Stamp} (h : sameList as bs = true) :
    sameList bs as = true := by
  rw [sameList_iff] at h ⊢
  exact (h.imp fun _ _ => same_symm).flip

theorem sameList_trans {as bs cs : List Stamp} (hab : sameList as bs = true)
    (hbc : sameList bs cs = true) : sameList as cs = true := by
  induction as generalizing bs cs with
  | nil => cases bs <;> cases cs <;> simp_all [sameList]
  | cons a as ih =>
      cases bs <;> cases cs <;> simp_all [sameList]
      exact ⟨same_trans hab.1 hbc.1, ih hab.2 hbc.2⟩

/-- The results of stamps that are the same are the same. -/
theorem sameList_results {as bs : List Stamp} (h : sameList as bs = true) :
    List.Forall₂ (fun a b => sameResult a b = true) (as.map result) (bs.map result) := by
  rw [sameList_iff] at h
  rw [List.forall₂_map_left_iff, List.forall₂_map_right_iff]
  refine h.imp fun a b hab => ?_
  simp only [same, Bool.and_eq_true] at hab
  exact hab.1

end Stamp

end CellGraph
