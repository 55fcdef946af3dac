/-!
# Slots

Storage whose places are reused, with handles that are not. A handle names a place and the generation
in which it was handed out; freeing a place starts its next generation, so an old handle finds
nothing there even when the place is taken again.
-/

namespace CellGraph

/-- A handle: a place and a generation of it. -/
structure Slot where
  index : Nat
  generation : Nat
deriving DecidableEq, Repr

/-- A place: its current generation, and what it holds. -/
structure Slots.Entry (α : Type) where
  generation : Nat
  content : Option α

/-- Storage with reusable places. -/
structure Slots (α : Type) where
  entries : Array (Slots.Entry α) := #[]
  /-- The free places, the one to be taken next in front. -/
  free : List Nat := []

namespace Slots

variable {α : Type}

/-- What a handle stands for, unless it is out of date. -/
def get? (s : Slots α) (slot : Slot) : Option α :=
  match s.entries[slot.index]? with
  | some entry => if entry.generation = slot.generation then entry.content else none
  | none => none

/-- Whether a handle stands for something. -/
def contains (s : Slots α) (slot : Slot) : Bool :=
  (s.get? slot).isSome

/-- Stores a value in a new place at the end. -/
def append (s : Slots α) (a : α) : Slot × Slots α :=
  ({ index := s.entries.size, generation := 0 },
    { s with entries := s.entries.push { generation := 0, content := some a } })

/-- Stores a value, in the place that became free last or else in a new one. -/
def insert (s : Slots α) (a : α) : Slot × Slots α :=
  match s.free with
  | [] => s.append a
  | index :: free =>
    match s.entries[index]? with
    | none => s.append a
    | some entry =>
      ({ index, generation := entry.generation },
        { entries := s.entries.setIfInBounds index { entry with content := some a }, free })

/-- Takes a value out and frees its place; an old handle changes nothing. -/
def remove (s : Slots α) (slot : Slot) : Option α × Slots α :=
  match s.get? slot with
  | none => (none, s)
  | some a =>
    let vacant : Entry α := { generation := slot.generation + 1, content := none }
    (some a,
      { entries := s.entries.setIfInBounds slot.index vacant, free := slot.index :: s.free })

/-- Replaces the value of a handle; an old handle changes nothing. -/
def set (s : Slots α) (slot : Slot) (a : α) : Slots α :=
  if s.contains slot then
    let entry : Entry α := { generation := slot.generation, content := some a }
    { s with entries := s.entries.setIfInBounds slot.index entry }
  else s

/-- The stored values with their handles, in the order of their places. -/
def toList (s : Slots α) : List (Slot × α) :=
  s.entries.toList.zipIdx.filterMap fun (entry, index) =>
    entry.content.map fun a => ({ index, generation := entry.generation }, a)

/-- The number of stored values: all places but the free ones. -/
def size (s : Slots α) : Nat :=
  s.entries.size - s.free.length

end Slots

end CellGraph
