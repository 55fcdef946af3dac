import CellGraph.Slots
import Mathlib.Data.List.Nodup
import Mathlib.Data.List.Perm.Basic

/-!
# Laws of slots

A storage is read through `get?`: one equation for each operation says what every handle finds
afterwards. The equation for `insert` needs the free list to hold exactly the vacant places
(`WellFormed`), which every operation keeps.

* `get?_insert`, `get?_remove`, `get?_set` are the three equations.
* `mem_toList` and `size_eq_length_toList` tie the listing and the count to `get?`.
* `Retired` is what a freed handle is from then on. No operation takes it back.
* `age_insert`, `age_remove`, `age_set` say how the generations of places grow: only `remove` starts a
  new one. `GenerationsLe` bounds them.
-/

namespace CellGraph.Slots

variable {α β : Type}

/-- The free list holds each vacant place once, and nothing else. -/
structure WellFormed (s : Slots α) : Prop where
  nodup : s.free.Nodup
  mem_free : ∀ i, i ∈ s.free ↔ ∃ entry, s.entries[i]? = some entry ∧ entry.content = none

/-- A storage without places is well formed. -/
theorem wellFormed_empty : ({} : Slots α).WellFormed where
  nodup := List.nodup_nil
  mem_free i := by simp

/-! ## Reading -/

/-- A handle finds a value exactly where its place is in its generation and holds that value. -/
theorem get?_eq_some_iff {s : Slots α} {slot : Slot} {a : α} :
    s.get? slot = some a ↔ s.entries[slot.index]? = some ⟨slot.generation, some a⟩ := by
  unfold get?
  cases hentry : s.entries[slot.index]? with
  | none => simp
  | some entry =>
      obtain ⟨generation, content⟩ := entry
      by_cases hgen : generation = slot.generation
      · simp [hgen]
      · simp [hgen]

/-- What a handle finds in a place that is known. -/
theorem get?_of_entry {s : Slots α} {slot : Slot} {entry : Entry α}
    (h : s.entries[slot.index]? = some entry) :
    s.get? slot = if entry.generation = slot.generation then entry.content else none := by
  simp [get?, h]

/-- What a handle finds after one place has been overwritten. -/
theorem get?_overwrite (s : Slots α) (free : List Nat) {i : Nat} (hi : i < s.entries.size)
    (entry : Entry α) (slot : Slot) :
    get? ⟨s.entries.setIfInBounds i entry, free⟩ slot =
      if slot.index = i then
        if entry.generation = slot.generation then entry.content else none
      else s.get? slot := by
  by_cases hindex : slot.index = i
  · rw [if_pos hindex]
    exact get?_of_entry (by simp [hindex, hi])
  · rw [if_neg hindex]
    simp [get?, Array.getElem?_setIfInBounds_ne (Ne.symm hindex)]

/-- Handles are equal when their places and generations are. -/
theorem slot_eq_iff {a b : Slot} : a = b ↔ a.index = b.index ∧ a.generation = b.generation := by
  cases a
  cases b
  simp

/-- The place of a handle that finds something exists. -/
theorem index_lt_of_get? {s : Slots α} {slot : Slot} {a : α} (h : s.get? slot = some a) :
    slot.index < s.entries.size := by
  rw [get?_eq_some_iff] at h
  exact (Array.getElem?_eq_some_iff.mp h).1

/-! ## Inserting -/

/-- What `insert` does: it takes the place in front of the free list, or makes a new one. -/
theorem insert_cases {s : Slots α} (hs : s.WellFormed) (a : α) :
    (s.free = [] ∧ s.insert a = (⟨s.entries.size, 0⟩, ⟨s.entries.push ⟨0, some a⟩, []⟩)) ∨
    ∃ i generation free, s.free = i :: free ∧ s.entries[i]? = some ⟨generation, none⟩ ∧
      s.insert a = (⟨i, generation⟩, ⟨s.entries.setIfInBounds i ⟨generation, some a⟩, free⟩) := by
  cases hfree : s.free with
  | nil => exact Or.inl ⟨rfl, by simp [insert, append, hfree]⟩
  | cons i free =>
      obtain ⟨⟨generation, content⟩, hentry, hvacant⟩ := (hs.mem_free i).mp (by simp [hfree])
      cases hvacant
      exact Or.inr ⟨i, generation, free, rfl, hentry, by simp [insert, hfree, hentry]⟩

/-- The handle that `insert` gives out found nothing before. -/
theorem get?_insert_fresh {s : Slots α} (hs : s.WellFormed) (a : α) :
    s.get? (s.insert a).1 = none := by
  obtain ⟨-, hinsert⟩ | ⟨i, generation, free, -, hentry, hinsert⟩ := insert_cases hs a
  · simp [hinsert, get?]
  · simp [hinsert, get?, hentry]

/-- After `insert`, the new handle finds the value and every other handle what it found before. -/
theorem get?_insert {s : Slots α} (hs : s.WellFormed) (a : α) (slot : Slot) :
    (s.insert a).2.get? slot = if slot = (s.insert a).1 then some a else s.get? slot := by
  obtain ⟨-, hinsert⟩ | ⟨i, generation, free, -, hentry, hinsert⟩ := insert_cases hs a
  · simp only [hinsert, get?, Array.getElem?_push, slot_eq_iff]
    by_cases hindex : slot.index = s.entries.size
    · by_cases hgen : slot.generation = 0
      · simp [hindex, hgen]
      · simp [hindex, hgen, Ne.symm hgen]
    · simp [hindex]
  · have hlt : i < s.entries.size := (Array.getElem?_eq_some_iff.mp hentry).1
    rw [hinsert, get?_overwrite s free hlt]
    simp only [slot_eq_iff]
    by_cases hindex : slot.index = i
    · -- the place was vacant, so no generation of it found anything
      subst hindex
      rw [get?_of_entry hentry]
      by_cases hgen : slot.generation = generation
      · simp [hgen]
      · simp [hgen, Ne.symm hgen]
    · simp [hindex]

/-- `insert` keeps a storage well formed. -/
theorem WellFormed.insert {s : Slots α} (hs : s.WellFormed) (a : α) :
    (s.insert a).2.WellFormed := by
  obtain ⟨hfree, hinsert⟩ | ⟨i, generation, free, hfree, hentry, hinsert⟩ := insert_cases hs a
  · rw [hinsert]
    refine ⟨List.nodup_nil, fun j => ?_⟩
    have hj := hs.mem_free j
    simp only [hfree, List.not_mem_nil, false_iff, not_exists, not_and] at hj
    simp only [List.not_mem_nil, Array.getElem?_push, false_iff, not_exists, not_and]
    intro entry hentry
    split at hentry
    · cases hentry
      simp
    · exact hj entry hentry
  · have hnodup := hs.nodup
    rw [hfree, List.nodup_cons] at hnodup
    rw [hinsert]
    refine ⟨hnodup.2, fun j => ?_⟩
    have hj := hs.mem_free j
    rw [hfree, List.mem_cons] at hj
    have hlt : i < s.entries.size := (Array.getElem?_eq_some_iff.mp hentry).1
    simp only [Array.getElem?_setIfInBounds]
    by_cases hij : i = j
    · subst hij
      simp [hnodup.1, hlt]
    · simpa [hij, Ne.symm hij] using hj

/-! ## Removing -/

/-- `remove` hands out what the handle found. -/
@[simp]
theorem remove_fst (s : Slots α) (slot : Slot) : (s.remove slot).1 = s.get? slot := by
  unfold remove
  split <;> simp_all

/-- A handle that finds nothing removes nothing. -/
theorem remove_of_get?_none {s : Slots α} {slot : Slot} (h : s.get? slot = none) :
    s.remove slot = (none, s) := by
  simp [remove, h]

/-- After `remove`, the handle finds nothing and every other handle what it found before. -/
theorem get?_remove (s : Slots α) (slot other : Slot) :
    (s.remove slot).2.get? other = if other = slot then none else s.get? other := by
  cases hget : s.get? slot with
  | none =>
      rw [remove_of_get?_none hget]
      split
      · next h => rw [h, hget]
      · rfl
  | some a =>
      have hentry := get?_eq_some_iff.mp hget
      have hlt := index_lt_of_get? hget
      simp only [remove, hget]
      rw [get?_overwrite s _ hlt]
      simp only [slot_eq_iff]
      by_cases hindex : other.index = slot.index
      · rw [get?_of_entry (hindex ▸ hentry)]
        by_cases hgen : other.generation = slot.generation
        · simp [hindex, hgen]
        · simp [hindex, hgen, Ne.symm hgen]
      · simp [hindex]

/-- `remove` keeps a storage well formed. -/
theorem WellFormed.remove {s : Slots α} (hs : s.WellFormed) (slot : Slot) :
    (s.remove slot).2.WellFormed := by
  cases hget : s.get? slot with
  | none => rwa [remove_of_get?_none hget]
  | some a =>
      have hentry := get?_eq_some_iff.mp hget
      have hlt := index_lt_of_get? hget
      simp only [Slots.remove, hget]
      refine ⟨List.nodup_cons.mpr ⟨?_, hs.nodup⟩, fun j => ?_⟩
      · rw [hs.mem_free]
        rintro ⟨entry, hother, hvacant⟩
        rw [hentry] at hother
        cases hother
        simp at hvacant
      · simp only [List.mem_cons, Array.getElem?_setIfInBounds]
        by_cases hindex : slot.index = j
        · subst hindex
          simp [hlt]
        · simpa [hindex, Ne.symm hindex] using hs.mem_free j

/-! ## Replacing -/

/-- A handle that finds nothing replaces nothing. -/
theorem set_of_get?_none {s : Slots α} {slot : Slot} (h : s.get? slot = none) (a : α) :
    s.set slot a = s := by
  simp [set, contains, h]

/-- The places after `set` through a handle that finds something. -/
theorem set_of_get?_some {s : Slots α} {slot : Slot} {b : α} (h : s.get? slot = some b) (a : α) :
    s.set slot a = { s with
      entries := s.entries.setIfInBounds slot.index ⟨slot.generation, some a⟩ } := by
  simp [set, contains, h]

/-- After `set`, a handle that found something finds the new value; all others are as before. -/
theorem get?_set (s : Slots α) (slot : Slot) (a : α) (other : Slot) :
    (s.set slot a).get? other =
      if other = slot then (s.get? slot).map fun _ => a else s.get? other := by
  cases hget : s.get? slot with
  | none =>
      rw [set_of_get?_none hget]
      split
      · next h => rw [h, hget]; rfl
      · rfl
  | some b =>
      have hentry := get?_eq_some_iff.mp hget
      have hlt := index_lt_of_get? hget
      rw [set_of_get?_some hget]
      rw [get?_overwrite s _ hlt]
      simp only [slot_eq_iff]
      by_cases hindex : other.index = slot.index
      · rw [get?_of_entry (hindex ▸ hentry)]
        by_cases hgen : other.generation = slot.generation
        · simp [hindex, hgen]
        · simp [hindex, hgen, Ne.symm hgen]
      · simp [hindex]

/-- `set` keeps a storage well formed. -/
theorem WellFormed.set {s : Slots α} (hs : s.WellFormed) (slot : Slot) (a : α) :
    (s.set slot a).WellFormed := by
  cases hget : s.get? slot with
  | none => rwa [set_of_get?_none hget]
  | some b =>
      have hentry := get?_eq_some_iff.mp hget
      have hlt := index_lt_of_get? hget
      rw [set_of_get?_some hget]
      refine ⟨hs.nodup, fun j => ?_⟩
      rw [hs.mem_free j]
      simp only [Array.getElem?_setIfInBounds]
      by_cases hindex : slot.index = j
      · subst hindex
        rw [hentry]
        simp [hlt]
      · simp [hindex]

/-! ## Listing and counting -/

/-- The listing holds each value with the handle that finds it. -/
theorem mem_toList {s : Slots α} {slot : Slot} {a : α} :
    (slot, a) ∈ s.toList ↔ s.get? slot = some a := by
  rw [get?_eq_some_iff]
  simp only [toList, List.mem_filterMap, Prod.exists, List.mk_mem_zipIdx_iff_getElem?,
    Array.getElem?_toList]
  constructor
  · rintro ⟨entry, index, hentry, hslot⟩
    obtain ⟨b, hb, hpair⟩ := Option.map_eq_some_iff.mp hslot
    obtain ⟨rfl, rfl⟩ := Prod.mk.inj hpair
    rw [hentry, ← hb]
  · intro hentry
    exact ⟨_, slot.index, hentry, rfl⟩

/-- The listing goes by places. -/
theorem pairwise_toList (s : Slots α) : s.toList.Pairwise fun p q => p.1.index < q.1.index := by
  have hplaces : s.entries.toList.zipIdx.Pairwise fun p q => p.2 < q.2 := by
    have hindices : (s.entries.toList.zipIdx.map Prod.snd).Pairwise (· < ·) := by
      rw [List.zipIdx_map_snd]
      exact List.pairwise_lt_range'
    exact List.pairwise_map.mp hindices
  refine List.pairwise_filterMap.mpr (hplaces.imp ?_)
  rintro ⟨entry, i⟩ ⟨entry', j⟩ hlt p hp q hq
  obtain ⟨-, -, rfl⟩ := Option.map_eq_some_iff.mp hp
  obtain ⟨-, -, rfl⟩ := Option.map_eq_some_iff.mp hq
  exact hlt

/-- The listing holds each handle once. -/
theorem nodup_toList (s : Slots α) : (s.toList.map Prod.fst).Nodup := by
  refine List.pairwise_map.mpr (s.pairwise_toList.imp fun hlt heq => ?_)
  exact Nat.ne_of_lt hlt (congrArg Slot.index heq)

/-- The free list is the vacant places, in some order. -/
theorem WellFormed.free_perm {s : Slots α} (hs : s.WellFormed) :
    s.free.Perm
      ((s.entries.toList.zipIdx.filter fun place => place.1.content.isNone).map Prod.snd) := by
  refine (List.perm_ext_iff_of_nodup hs.nodup ?_).mpr fun i => ?_
  · have hplaces : (s.entries.toList.zipIdx.map Prod.snd).Nodup := by
      rw [List.zipIdx_map_snd]
      exact List.nodup_range'
    exact hplaces.sublist (List.filter_sublist.map Prod.snd)
  · rw [hs.mem_free i]
    simp [List.mk_mem_zipIdx_iff_getElem?]

/-- No more places are free than there are. -/
theorem WellFormed.free_length_le {s : Slots α} (hs : s.WellFormed) :
    s.free.length ≤ s.entries.size := by
  calc s.free.length
      = ((s.entries.toList.zipIdx.filter fun place => place.1.content.isNone).map Prod.snd).length :=
        hs.free_perm.length_eq
    _ ≤ s.entries.toList.zipIdx.length := by
        rw [List.length_map]
        exact List.length_filter_le _ _
    _ = s.entries.size := by rw [List.length_zipIdx, Array.length_toList]

/-- Every place holds a value or is free, so the count is the length of the listing. -/
theorem size_eq_length_toList {s : Slots α} (hs : s.WellFormed) : s.size = s.toList.length := by
  have hfree := hs.free_perm.length_eq
  rw [List.length_map, ← List.countP_eq_length_filter] at hfree
  have hlisted : s.toList.length =
      s.entries.toList.zipIdx.countP fun place => place.1.content.isSome := by
    simp [toList, List.length_filterMap_eq_countP]
  have htotal := List.length_eq_countP_add_countP
    (fun place => place.1.content.isSome) (l := s.entries.toList.zipIdx)
  have hvacant : (fun place : Entry α × Nat => decide ¬ place.1.content.isSome = true) =
      fun place => place.1.content.isNone := by
    funext place
    cases place.1.content <;> rfl
  rw [hvacant, ← hlisted, ← hfree] at htotal
  simp only [List.length_zipIdx, Array.length_toList] at htotal
  unfold size
  omega

/-! ## Freed handles -/

/-- A handle whose place has moved on to a later generation. -/
def Retired (s : Slots α) (slot : Slot) : Prop :=
  ∃ entry, s.entries[slot.index]? = some entry ∧ slot.generation < entry.generation

/-- A retired handle finds nothing. -/
theorem Retired.get? {s : Slots α} {slot : Slot} (h : s.Retired slot) : s.get? slot = none := by
  obtain ⟨entry, hentry, hlt⟩ := h
  rw [get?_of_entry hentry, if_neg (by omega)]

/-- A handle that found something is retired by its removal. -/
theorem retired_remove {s : Slots α} {slot : Slot} {a : α} (h : s.get? slot = some a) :
    (s.remove slot).2.Retired slot := by
  have hlt := index_lt_of_get? h
  refine ⟨⟨slot.generation + 1, none⟩, ?_, Nat.lt_succ_self _⟩
  simp [remove, h, hlt]

/-- The generation of each place only grows from one storage to the other. -/
def Ages (s t : Slots α) : Prop :=
  ∀ (i : Nat) (entry : Entry α), s.entries[i]? = some entry →
    ∃ entry', t.entries[i]? = some entry' ∧ entry.generation ≤ entry'.generation

/-- A retired handle stays retired. -/
theorem Retired.of_ages {s t : Slots α} {slot : Slot} (hst : s.Ages t) (h : s.Retired slot) :
    t.Retired slot := by
  obtain ⟨entry, hentry, hlt⟩ := h
  obtain ⟨entry', hentry', hle⟩ := hst _ _ hentry
  exact ⟨entry', hentry', by omega⟩

/-- Overwriting a place with an entry of a generation no smaller ages the storage. -/
theorem ages_overwrite {s : Slots α} {i : Nat} {old new : Entry α} (free : List Nat)
    (hold : s.entries[i]? = some old) (hle : old.generation ≤ new.generation) :
    s.Ages ⟨s.entries.setIfInBounds i new, free⟩ := by
  intro j entry hentry
  have hlt : i < s.entries.size := (Array.getElem?_eq_some_iff.mp hold).1
  by_cases hij : i = j
  · subst hij
    rw [hold] at hentry
    cases hentry
    exact ⟨new, by simp [hlt], hle⟩
  · exact ⟨entry, by simpa [Array.getElem?_setIfInBounds_ne hij] using hentry, Nat.le_refl _⟩

theorem ages_refl (s : Slots α) : s.Ages s :=
  fun _ entry hentry => ⟨entry, hentry, Nat.le_refl _⟩

theorem ages_insert {s : Slots α} (hs : s.WellFormed) (a : α) : s.Ages (s.insert a).2 := by
  obtain ⟨-, hinsert⟩ | ⟨i, generation, free, -, hentry, hinsert⟩ := insert_cases hs a
  · intro j entry hentry
    have hlt : j < s.entries.size := (Array.getElem?_eq_some_iff.mp hentry).1
    exact ⟨entry, by simpa [hinsert, Array.getElem?_push, Nat.ne_of_lt hlt] using hentry,
      Nat.le_refl _⟩
  · rw [hinsert]
    exact ages_overwrite free hentry (Nat.le_refl _)

theorem ages_remove (s : Slots α) (slot : Slot) : s.Ages (s.remove slot).2 := by
  cases hget : s.get? slot with
  | none =>
      rw [remove_of_get?_none hget]
      exact ages_refl s
  | some a =>
      simp only [remove, hget]
      exact ages_overwrite _ (get?_eq_some_iff.mp hget) (Nat.le_succ _)

theorem ages_set (s : Slots α) (slot : Slot) (a : α) : s.Ages (s.set slot a) := by
  cases hget : s.get? slot with
  | none =>
      rw [set_of_get?_none hget]
      exact ages_refl s
  | some b =>
      rw [set_of_get?_some hget]
      exact ages_overwrite _ (get?_eq_some_iff.mp hget) (Nat.le_refl _)

/-! ## Handles given out -/

/-- A handle that was given out: it finds something, or it is retired. -/
def Issued (s : Slots α) (slot : Slot) : Prop :=
  (s.get? slot).isSome = true ∨ s.Retired slot

/-- A handle is given out once. -/
theorem not_issued_insert {s : Slots α} (hs : s.WellFormed) (a : α) : ¬ s.Issued (s.insert a).1 := by
  rintro (hlive | ⟨entry, hentry, hlt⟩)
  · rw [get?_insert_fresh hs] at hlive
    cases hlive
  · obtain ⟨-, hinsert⟩ | ⟨i, generation, free, -, hvacant, hinsert⟩ := insert_cases hs a
    · rw [hinsert] at hentry
      simp at hentry
    · rw [hinsert] at hentry hlt
      cases hvacant.symm.trans hentry
      exact Nat.lt_irrefl _ hlt

theorem Issued.insert {s : Slots α} {slot : Slot} (h : s.Issued slot) (hs : s.WellFormed) (a : α) :
    (s.insert a).2.Issued slot := by
  rcases h with hlive | hretired
  · refine Or.inl ?_
    rw [get?_insert hs]
    split
    · rfl
    · exact hlive
  · exact Or.inr (hretired.of_ages (ages_insert hs a))

theorem Issued.remove {s : Slots α} {slot : Slot} (h : s.Issued slot) (other : Slot) :
    (s.remove other).2.Issued slot := by
  rcases h with hlive | hretired
  · by_cases hother : slot = other
    · obtain ⟨a, ha⟩ := Option.isSome_iff_exists.mp hlive
      rw [← hother]
      exact Or.inr (retired_remove ha)
    · refine Or.inl ?_
      rwa [get?_remove, if_neg hother]
  · exact Or.inr (hretired.of_ages (ages_remove s other))

theorem Issued.set {s : Slots α} {slot : Slot} (h : s.Issued slot) (other : Slot) (a : α) :
    (s.set other a).Issued slot := by
  rcases h with hlive | hretired
  · refine Or.inl ?_
    rw [get?_set]
    split
    · next hother => simpa [hother] using hlive
    · exact hlive
  · exact Or.inr (hretired.of_ages (ages_set s other a))

/-! ## How often places were freed -/

/-- The generation of a place; a place that is not there yet is in its first one. -/
def age (s : Slots α) (i : Nat) : Nat :=
  s.entries[i]?.elim 0 Entry.generation

theorem age_of_entry {s : Slots α} {i : Nat} {entry : Entry α} (h : s.entries[i]? = some entry) :
    s.age i = entry.generation := by
  rw [age, h]
  rfl

/-- The ages of the places after one of them has been overwritten. -/
theorem age_overwrite (s : Slots α) (free : List Nat) {i : Nat} (hi : i < s.entries.size)
    (entry : Entry α) (j : Nat) :
    age ⟨s.entries.setIfInBounds i entry, free⟩ j = if i = j then entry.generation else s.age j := by
  by_cases hij : i = j
  · subst hij
    simp [age, hi]
  · simp [age, hij]

/-- Storing a value starts no generation. -/
theorem age_insert {s : Slots α} (hs : s.WellFormed) (a : α) (j : Nat) :
    (s.insert a).2.age j = s.age j := by
  obtain ⟨-, hinsert⟩ | ⟨i, generation, free, -, hentry, hinsert⟩ := insert_cases hs a
  · rw [hinsert]
    by_cases hj : j = s.entries.size
    · simp [age, hj]
    · simp [age, Array.getElem?_push, hj]
  · have hlt : i < s.entries.size := (Array.getElem?_eq_some_iff.mp hentry).1
    rw [hinsert, age_overwrite s free hlt]
    split
    · next hij => rw [← hij, age_of_entry hentry]
    · rfl

/-- Taking a value out starts the next generation of its place, and of no other. -/
theorem age_remove (s : Slots α) (slot : Slot) (j : Nat) :
    (s.remove slot).2.age j = s.age j + (slot.index = j && s.contains slot).toNat := by
  cases hget : s.get? slot with
  | none => simp [remove_of_get?_none hget, contains, hget]
  | some a =>
      have hage := age_of_entry (get?_eq_some_iff.mp hget)
      simp only [remove, hget]
      rw [age_overwrite s _ (index_lt_of_get? hget)]
      by_cases hj : slot.index = j
      · subst hj
        simp [contains, hget, hage]
      · simp [hj]

theorem age_set (s : Slots α) (slot : Slot) (a : α) (j : Nat) : (s.set slot a).age j = s.age j := by
  cases hget : s.get? slot with
  | none => rw [set_of_get?_none hget]
  | some b =>
      have hage := age_of_entry (get?_eq_some_iff.mp hget)
      rw [set_of_get?_some hget, age_overwrite s _ (index_lt_of_get? hget)]
      split
      · next hj => rw [← hj, hage]
      · rfl

/-- No place has got past generation `n`. -/
def GenerationsLe (s : Slots α) (n : Nat) : Prop :=
  ∀ (i : Nat) (entry : Entry α), s.entries[i]? = some entry → entry.generation ≤ n

theorem generationsLe_iff {s : Slots α} {n : Nat} : s.GenerationsLe n ↔ ∀ i, s.age i ≤ n := by
  constructor
  · intro h i
    cases hentry : s.entries[i]? with
    | none => simp [age, hentry]
    | some entry => rw [age_of_entry hentry]; exact h i entry hentry
  · intro h i entry hentry
    rw [← age_of_entry hentry]
    exact h i

theorem GenerationsLe.insert {s : Slots α} {n : Nat} (h : s.GenerationsLe n) (hs : s.WellFormed)
    (a : α) : (s.insert a).2.GenerationsLe n := by
  rw [generationsLe_iff] at h ⊢
  intro i
  rw [age_insert hs]
  exact h i

/-- Each removal starts at most one more generation. -/
theorem GenerationsLe.remove {s : Slots α} {n : Nat} (h : s.GenerationsLe n) (slot : Slot) :
    (s.remove slot).2.GenerationsLe (n + 1) := by
  rw [generationsLe_iff] at h ⊢
  intro i
  rw [age_remove]
  exact Nat.add_le_add (h i) (Bool.toNat_le _)

theorem GenerationsLe.set {s : Slots α} {n : Nat} (h : s.GenerationsLe n) (slot : Slot) (a : α) :
    (s.set slot a).GenerationsLe n := by
  rw [generationsLe_iff] at h ⊢
  intro i
  rw [age_set]
  exact h i

/-! ## Mapping -/

/-- Changes every stored value in the light of its handle; the handles stay. -/
def map (f : Slot → α → β) (s : Slots α) : Slots β where
  entries := s.entries.mapIdx fun index entry =>
    { entry with content := entry.content.map (f { index, generation := entry.generation }) }
  free := s.free

theorem get?_map (f : Slot → α → β) (s : Slots α) (slot : Slot) :
    (s.map f).get? slot = (s.get? slot).map (f slot) := by
  simp only [get?, map, Array.getElem?_mapIdx]
  cases hentry : s.entries[slot.index]? with
  | none => rfl
  | some entry =>
      by_cases hgen : entry.generation = slot.generation
      · simp [hgen]
      · simp [hgen]

theorem toList_map (f : Slot → α → β) (s : Slots α) :
    (s.map f).toList = s.toList.map fun place => (place.1, f place.1 place.2) := by
  have hplaces : (s.map f).entries.toList.zipIdx = s.entries.toList.zipIdx.map fun place =>
      ({ place.1 with
        content := place.1.content.map (f { index := place.2, generation := place.1.generation }) },
        place.2) := by
    refine List.ext_getElem? fun i => ?_
    simp only [map, Array.toList_mapIdx, List.getElem?_zipIdx, List.getElem?_mapIdx,
      List.getElem?_map]
    cases s.entries.toList[i]? <;> simp
  unfold toList
  rw [hplaces, List.filterMap_map, List.map_filterMap]
  refine List.filterMap_congr fun place _ => ?_
  simp only [Function.comp_apply]
  cases place.1.content <;> rfl

/-- A replacement that `f` does not see is not there after mapping. -/
theorem map_set {f : Slot → α → β} {s : Slots α} {slot : Slot} {a b : α}
    (hget : s.get? slot = some b) (hsame : f slot a = f slot b) :
    (s.set slot a).map f = s.map f := by
  have hentry := get?_eq_some_iff.mp hget
  rw [set_of_get?_some hget]
  unfold map
  congr 1
  refine Array.ext_getElem? fun i => ?_
  simp only [Array.getElem?_mapIdx, Array.getElem?_setIfInBounds]
  by_cases hi : slot.index = i
  · subst hi
    rw [if_pos rfl, if_pos (index_lt_of_get? hget), hentry]
    simp [hsame]
  · simp [hi]

theorem WellFormed.map {s : Slots α} (hs : s.WellFormed) (f : Slot → α → β) :
    (s.map f).WellFormed where
  nodup := hs.nodup
  mem_free i := by
    simp only [Slots.map, Array.getElem?_mapIdx, hs.mem_free i]
    cases s.entries[i]? with
    | none => simp
    | some entry => simp

end CellGraph.Slots
