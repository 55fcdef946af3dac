import CellGraph.Proofs.Slots
import Mathlib.Data.Finmap

/-!
# A storage is a finite map

To those who use it a storage is a finite map from handles to values that never gives a handle out
twice. `Directory` is that map, with the handles given out so far, and `Directory.Step` says which
answer to a request it allows: a new handle may be any that was not given out before, everything else
is determined by the map.

* `Represents.step` is one request, `Represents.run` a run of them.
* The map knows no places and no generations. How large these numbers get is counted from the requests:
  there are as many places as were opened (`size_applyAll`), and the generation of a place is the number
  of times it was vacated (`age_applyAll`). So both fit into 32 bits as long as the counts do.
-/

namespace CellGraph.Slots

variable {α : Type}

/-! ## Requests -/

/-- What can be asked of a storage. -/
inductive Request (α : Type) where
  | insert (a : α)
  | remove (slot : Slot)
  | update (slot : Slot) (f : α → α)
  | get (slot : Slot)
  | contains (slot : Slot)
  | list
  | count

/-- What a storage answers. -/
inductive Answer (α : Type) where
  | handle (slot : Slot)
  | found (content : Option α)
  | live (yes : Bool)
  | listed (places : List (Slot × α))
  | counted (n : Nat)

namespace Request

/-- The answer to a request, and the storage after it. -/
def apply (s : Slots α) : Request α → Answer α × Slots α
  | insert a => (.handle (s.insert a).1, (s.insert a).2)
  | remove slot => (.found (s.remove slot).1, (s.remove slot).2)
  | update slot f => (.found (s.get? slot), (s.get? slot).elim s fun a => s.set slot (f a))
  | get slot => (.found (s.get? slot), s)
  | contains slot => (.live (s.contains slot), s)
  | list => (.listed s.toList, s)
  | count => (.counted s.size, s)

/-- The storage after requests, one after the other. -/
def applyAll (s : Slots α) (requests : List (Request α)) : Slots α :=
  requests.foldl (fun s request => (request.apply s).2) s

/-- The requests with their answers. -/
def transcript (s : Slots α) : List (Request α) → List (Request α × Answer α)
  | [] => []
  | request :: requests =>
    (request, (request.apply s).1) :: transcript (request.apply s).2 requests

/-- How many of the requests are of a kind, which may depend on the storage that a request meets. -/
def tally (kind : Slots α → Request α → Bool) (s : Slots α) : List (Request α) → Nat
  | [] => 0
  | request :: requests =>
    (kind s request).toNat + tally kind (request.apply s).2 requests

/-- The request stores a value in a place that was not there. -/
def opens (s : Slots α) : Request α → Bool
  | insert _ => s.free.isEmpty
  | _ => false

/-- The request takes a value out of the place. -/
def vacates (i : Nat) (s : Slots α) : Request α → Bool
  | remove slot => slot.index = i && s.contains slot
  | _ => false

end Request

/-! ## The map -/

/-- A finite map from handles to values, and the handles that were given out so far. -/
structure Directory (α : Type) where
  live : Finmap fun _ : Slot => α := ∅
  issued : List Slot := []

namespace Directory

/-- The map answers a request and becomes another one. -/
inductive Step (m : Directory α) : Request α → Answer α → Directory α → Prop
  | insert (a : α) (slot : Slot) (fresh : slot ∉ m.issued) :
      Step m (.insert a) (.handle slot)
        { live := m.live.insert slot a, issued := slot :: m.issued }
  | remove (slot : Slot) (a : α) (found : m.live.lookup slot = some a) :
      Step m (.remove slot) (.found (some a)) { m with live := m.live.erase slot }
  | removeNothing (slot : Slot) (missing : m.live.lookup slot = none) :
      Step m (.remove slot) (.found none) m
  | update (slot : Slot) (f : α → α) (a : α) (found : m.live.lookup slot = some a) :
      Step m (.update slot f) (.found (some a)) { m with live := m.live.insert slot (f a) }
  | updateNothing (slot : Slot) (f : α → α) (missing : m.live.lookup slot = none) :
      Step m (.update slot f) (.found none) m
  | get (slot : Slot) : Step m (.get slot) (.found (m.live.lookup slot)) m
  | contains (slot : Slot) : Step m (.contains slot) (.live (m.live.lookup slot).isSome) m
  | list (places : List (Slot × α))
      (exact : ∀ slot a, (slot, a) ∈ places ↔ m.live.lookup slot = some a)
      (increasing : places.Pairwise fun p q => p.1.index < q.1.index) :
      Step m .list (.listed places) m
  | count : Step m .count (.counted m.live.keys.card) m

/-- The map answers requests one after the other. -/
inductive Run : Directory α → List (Request α × Answer α) → Directory α → Prop
  | nil (m : Directory α) : Run m [] m
  | cons {m next last : Directory α} {request : Request α} {answer : Answer α}
      {rest : List (Request α × Answer α)} (step : Step m request answer next)
      (run : Run next rest last) : Run m ((request, answer) :: rest) last

end Directory

/-- The storage is a well-formed one with the content of the map, and no handle that the map gave out
will be given out by the storage. -/
structure Represents (s : Slots α) (m : Directory α) : Prop where
  wellFormed : s.WellFormed
  get? : ∀ slot, s.get? slot = m.live.lookup slot
  issued : ∀ slot ∈ m.issued, s.Issued slot

theorem represents_empty : Represents ({} : Slots α) {} where
  wellFormed := wellFormed_empty
  get? slot := by simp [Slots.get?]
  issued slot hslot := absurd hslot List.not_mem_nil

/-- The count is the number of keys of the map. -/
theorem Represents.size_eq {s : Slots α} {m : Directory α} (h : s.Represents m) :
    s.size = m.live.keys.card := by
  have hkeys : m.live.keys = (s.toList.map Prod.fst).toFinset := by
    ext slot
    rw [Finmap.mem_keys, Finmap.mem_iff, List.mem_toFinset, List.mem_map]
    constructor
    · rintro ⟨a, ha⟩
      exact ⟨(slot, a), mem_toList.mpr ((h.get? slot).trans ha), rfl⟩
    · rintro ⟨place, hplace, rfl⟩
      exact ⟨place.2, (h.get? place.1).symm.trans (mem_toList.mp hplace)⟩
  rw [hkeys, List.toFinset_card_of_nodup s.nodup_toList, List.length_map,
    size_eq_length_toList h.wellFormed]

section

variable {s : Slots α} {m : Directory α}

theorem Represents.insert (h : s.Represents m) (a : α) :
    Represents (s.insert a).2
      { live := m.live.insert (s.insert a).1 a, issued := (s.insert a).1 :: m.issued } where
  wellFormed := h.wellFormed.insert a
  get? slot := by
    rw [get?_insert h.wellFormed]
    split
    · next hslot => rw [hslot, Finmap.lookup_insert]
    · next hslot => rw [Finmap.lookup_insert_of_ne _ hslot, h.get?]
  issued slot hslot := by
    rcases List.mem_cons.mp hslot with rfl | hbefore
    · refine Or.inl ?_
      rw [get?_insert h.wellFormed, if_pos rfl]
      rfl
    · exact (h.issued slot hbefore).insert h.wellFormed a

theorem Represents.remove (h : s.Represents m) (slot : Slot) :
    Represents (s.remove slot).2 { m with live := m.live.erase slot } where
  wellFormed := h.wellFormed.remove slot
  get? other := by
    rw [get?_remove]
    split
    · next hother => rw [hother, Finmap.lookup_erase]
    · next hother => rw [Finmap.lookup_erase_ne hother, h.get?]
  issued other hother := (h.issued other hother).remove slot

theorem Represents.set (h : s.Represents m) {slot : Slot} {b : α} (hslot : s.get? slot = some b)
    (a : α) : Represents (s.set slot a) { m with live := m.live.insert slot a } where
  wellFormed := h.wellFormed.set slot a
  get? other := by
    rw [get?_set, hslot]
    split
    · next hother => rw [hother, Finmap.lookup_insert]; rfl
    · next hother => rw [Finmap.lookup_insert_of_ne _ hother, h.get?]
  issued other hother := (h.issued other hother).set slot a

/-- A storage answers a request as its map does, and represents the map that follows. -/
theorem Represents.step (h : s.Represents m) (request : Request α) :
    ∃ next, m.Step request (request.apply s).1 next ∧ Represents (request.apply s).2 next := by
  cases request with
  | insert a =>
      have hfresh : (s.insert a).1 ∉ m.issued := fun hslot =>
        not_issued_insert h.wellFormed a (h.issued _ hslot)
      exact ⟨_, .insert a _ hfresh, h.insert a⟩
  | remove slot =>
      cases hget : s.get? slot with
      | none =>
          have hmissing := (h.get? slot).symm.trans hget
          rw [Request.apply, remove_of_get?_none hget]
          exact ⟨m, .removeNothing slot hmissing, h⟩
      | some a =>
          have hfound := (h.get? slot).symm.trans hget
          rw [Request.apply, remove_fst, hget]
          exact ⟨_, .remove slot a hfound, h.remove slot⟩
  | update slot f =>
      rw [Request.apply]
      cases hget : s.get? slot with
      | none => exact ⟨m, .updateNothing slot f ((h.get? slot).symm.trans hget), h⟩
      | some a => exact ⟨_, .update slot f a ((h.get? slot).symm.trans hget), h.set hget (f a)⟩
  | get slot =>
      rw [Request.apply, h.get?]
      exact ⟨m, .get slot, h⟩
  | contains slot =>
      rw [Request.apply, Slots.contains, h.get?]
      exact ⟨m, .contains slot, h⟩
  | list =>
      have hexact : ∀ slot a, (slot, a) ∈ s.toList ↔ m.live.lookup slot = some a := fun slot a => by
        rw [mem_toList, h.get?]
      exact ⟨m, .list _ hexact s.pairwise_toList, h⟩
  | count =>
      rw [Request.apply, h.size_eq]
      exact ⟨m, .count, h⟩

/-- A storage answers every run of requests as its map does. -/
theorem Represents.run (h : s.Represents m) (requests : List (Request α)) :
    ∃ last, m.Run (Request.transcript s requests) last ∧
      Represents (Request.applyAll s requests) last := by
  induction requests generalizing s m with
  | nil => exact ⟨m, .nil m, h⟩
  | cons request requests ih =>
      obtain ⟨next, hstep, hnext⟩ := h.step request
      obtain ⟨last, hrun, hlast⟩ := ih hnext
      exact ⟨last, .cons hstep hrun, hlast⟩

end

/-! ## Counting -/

namespace Request

theorem tally_append (kind : Slots α → Request α → Bool) (s : Slots α)
    (before after : List (Request α)) :
    tally kind s (before ++ after) = tally kind s before + tally kind (applyAll s before) after := by
  induction before generalizing s with
  | nil => exact (Nat.zero_add _).symm
  | cons request before ih =>
      rw [List.cons_append, tally, tally, ih, Nat.add_assoc]
      rfl

theorem tally_le_length (kind : Slots α → Request α → Bool) (s : Slots α)
    (requests : List (Request α)) : tally kind s requests ≤ requests.length := by
  induction requests generalizing s with
  | nil => exact Nat.le_refl 0
  | cons request requests ih =>
      have hrest := ih (request.apply s).2
      have hfirst := (kind s request).toNat_le
      rw [tally, List.length_cons]
      omega

theorem wellFormed_apply {s : Slots α} (hs : s.WellFormed) (request : Request α) :
    (request.apply s).2.WellFormed := by
  cases request with
  | insert a => exact hs.insert a
  | remove slot => exact hs.remove slot
  | update slot f =>
      rw [apply]
      cases s.get? slot with
      | none => exact hs
      | some a => exact hs.set slot (f a)
  | get slot | contains slot | list | count => exact hs

/-- A number that goes up by one with the requests of a kind, and with no others, goes up in a run by
their tally. -/
theorem measure_applyAll {kind : Slots α → Request α → Bool} (measure : Slots α → Nat)
    (hstep : ∀ {s : Slots α}, s.WellFormed → ∀ request : Request α,
      measure (request.apply s).2 = measure s + (kind s request).toNat)
    {s : Slots α} (hs : s.WellFormed) (requests : List (Request α)) :
    measure (applyAll s requests) = measure s + tally kind s requests := by
  induction requests generalizing s with
  | nil => rfl
  | cons request requests ih =>
      have hrest := ih (wellFormed_apply hs request)
      rw [hstep hs, Nat.add_assoc] at hrest
      exact hrest

/-- Only storing a value where no place is free makes a place. -/
theorem size_apply {s : Slots α} (hs : s.WellFormed) (request : Request α) :
    (request.apply s).2.entries.size = s.entries.size + (opens s request).toNat := by
  cases request with
  | insert a =>
      simp only [apply, opens]
      obtain ⟨hfree, hinsert⟩ | ⟨i, generation, free, hfree, -, hinsert⟩ := insert_cases hs a
      · rw [hinsert, hfree, Array.size_push]
        rfl
      · rw [hinsert, hfree, Array.size_setIfInBounds]
        rfl
  | remove slot =>
      simp only [apply, opens]
      cases hget : s.get? slot with
      | none => rw [remove_of_get?_none hget]; rfl
      | some a => simp [Slots.remove, hget]
  | update slot f =>
      simp only [apply, opens]
      cases hget : s.get? slot with
      | none => rfl
      | some a => simp [set_of_get?_some hget]
  | get slot | contains slot | list | count => rfl

/-- A storage has as many places as were opened. -/
theorem size_applyAll {s : Slots α} (hs : s.WellFormed) (requests : List (Request α)) :
    (applyAll s requests).entries.size = s.entries.size + tally opens s requests :=
  measure_applyAll (fun s => s.entries.size) size_apply hs requests

theorem age_apply (i : Nat) {s : Slots α} (hs : s.WellFormed) (request : Request α) :
    (request.apply s).2.age i = s.age i + (vacates i s request).toNat := by
  cases request with
  | insert a => exact age_insert hs a i
  | remove slot => exact age_remove s slot i
  | update slot f =>
      simp only [apply, vacates]
      cases s.get? slot with
      | none => rfl
      | some a => exact age_set s slot (f a) i
  | get slot | contains slot | list | count => rfl

/-- The generation of a place is the number of times that it was vacated. -/
theorem age_applyAll (i : Nat) {s : Slots α} (hs : s.WellFormed) (requests : List (Request α)) :
    (applyAll s requests).age i = s.age i + tally (vacates i) s requests :=
  measure_applyAll (fun s => s.age i) (age_apply i) hs requests

end Request

/-! ## Runs -/

/-- A storage whose numbers fit into 32 bits and whose free list can be relied on: the place that is taken
next is there and vacant, and the free places are no more than all places. -/
structure InBounds (s : Slots α) : Prop where
  wellFormed : s.WellFormed
  free_le : s.free.length ≤ s.entries.size
  size_lt : s.entries.size < UInt32.size
  generation_lt : ∀ (i : Nat) (entry : Entry α), s.entries[i]? = some entry →
    entry.generation < UInt32.size

/-- A storage is in bounds after every part of a run in which fewer than `2 ^ 32` places are opened and no
place is vacated as often. -/
theorem inBounds_applyAll {requests : List (Request α)}
    (hopened : Request.tally Request.opens {} requests < UInt32.size)
    (hvacated : ∀ i, Request.tally (Request.vacates i) {} requests < UInt32.size)
    {before after : List (Request α)} (hparts : requests = before ++ after) :
    InBounds (Request.applyAll {} before) := by
  obtain ⟨_, _, hrepresents⟩ := represents_empty.run before
  have hwellFormed := hrepresents.wellFormed
  refine ⟨hwellFormed, hwellFormed.free_length_le, ?_, fun i entry hentry => ?_⟩
  · have hsize := Request.size_applyAll wellFormed_empty before
    rw [hparts, Request.tally_append] at hopened
    simp only [List.size_toArray, List.length_nil] at hsize
    omega
  · have hage := Request.age_applyAll i wellFormed_empty before
    have hvacated := hvacated i
    rw [hparts, Request.tally_append] at hvacated
    rw [age_of_entry hentry] at hage
    simp only [age, List.getElem?_toArray, List.getElem?_nil, Option.elim_none] at hage
    omega

/-- A storage answers every run of requests as a finite map would that gives no handle out twice, and at
the end every handle finds what the map has for it. All the while the numbers that the storage works with
fit into 32 bits, provided that fewer than `2 ^ 32` places are opened and no place is vacated as often. -/
theorem answers_as_finite_map (requests : List (Request α))
    (hopened : Request.tally Request.opens {} requests < UInt32.size)
    (hvacated : ∀ i, Request.tally (Request.vacates i) {} requests < UInt32.size) :
    (∃ m, Directory.Run {} (Request.transcript {} requests) m ∧
      ∀ slot, (Request.applyAll {} requests).get? slot = m.live.lookup slot) ∧
    ∀ before after, requests = before ++ after → InBounds (Request.applyAll {} before) := by
  obtain ⟨m, hrun, hrepresents⟩ := represents_empty.run requests
  exact ⟨⟨m, hrun, hrepresents.get?⟩, fun _ _ hparts => inBounds_applyAll hopened hvacated hparts⟩

/-- A place is freed twice with one handle, taken again, and asked for with the old handle. -/
def reuse : List (Request Nat) :=
  [.insert 1, .insert 2, .remove ⟨0, 0⟩, .remove ⟨0, 0⟩, .insert 3, .get ⟨0, 0⟩, .contains ⟨0, 1⟩,
    .update ⟨1, 0⟩ (· + 10), .list, .count]

theorem answers_as_finite_map_after_reuse :
    Request.tally Request.opens {} reuse < UInt32.size ∧
    (∀ i, Request.tally (Request.vacates i) {} reuse < UInt32.size) ∧
    (∃ m, Directory.Run {} (reuse.zip [.handle ⟨0, 0⟩, .handle ⟨1, 0⟩, .found (some 1), .found none,
      .handle ⟨0, 1⟩, .found none, .live true, .found (some 2),
      .listed [(⟨0, 1⟩, 3), (⟨1, 0⟩, 12)], .counted 2]) m ∧ m.live.lookup ⟨1, 0⟩ = some 12) ∧
    InBounds (Request.applyAll {} reuse) := by
  have hlength : reuse.length < UInt32.size := by decide
  have hopened := Nat.lt_of_le_of_lt (Request.tally_le_length Request.opens {} reuse) hlength
  have hvacated := fun i =>
    Nat.lt_of_le_of_lt (Request.tally_le_length (Request.vacates i) {} reuse) hlength
  obtain ⟨⟨m, hrun, hget⟩, hbounds⟩ := answers_as_finite_map reuse hopened hvacated
  refine ⟨hopened, hvacated, ⟨m, hrun, (hget ⟨1, 0⟩).symm⟩, hbounds reuse [] ?_⟩
  exact (List.append_nil reuse).symm

end CellGraph.Slots
