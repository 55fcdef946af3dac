import CellGraph.Text.Bytes

/-!
# Patches

A patch replaces a range of byte offsets of a text by another text. Patches are kept in the order of
their starts, one for each start. `applyAll?` applies them from front to back to a text that changes
its length on the way, so it carries the shift between old and new offsets along; a patch that starts
before the end of the last one applied is passed over.
-/

namespace CellGraph.Extraction

/-- The replacement of a range of a text. -/
structure Patch where
  start : Nat
  stop : Nat
  text : List Char
deriving DecidableEq, Repr

namespace Patch

/-- Puts a patch in its place by start, in place of a patch with that start. -/
def insert (p : Patch) : List Patch → List Patch
  | [] => [p]
  | q :: rest =>
    if p.start < q.start then p :: q :: rest
    else if p.start = q.start then p :: rest
    else q :: insert p rest

/-- Replaces the range from `start` to `stop`, if the text has it. -/
def replaceRange? (s : List Char) (start stop : Nat) (replacement : List Char) :
    Option (List Char) := do
  guard (start ≤ stop)
  let (front, back) ← Text.cut? stop s
  let (front, _) ← Text.cut? start front
  return front ++ replacement ++ back

/-- A text with some patches applied. -/
structure Progress where
  /-- The text so far. -/
  text : List Char
  /-- How far offsets behind the last patch have moved. -/
  shift : Int
  /-- The end of the last patch applied, in the old text. -/
  covered : Nat
deriving Repr

/-- An offset of the old text in the text so far. -/
def Progress.moved (p : Progress) (offset : Nat) : Nat :=
  ((offset : Int) + p.shift).toNat

/-- Applies one patch, or passes it over. -/
def step? (p : Progress) (patch : Patch) : Option Progress :=
  if patch.start < p.covered then some p
  else do
    let text ← replaceRange? p.text (p.moved patch.start) (p.moved patch.stop) patch.text
    return {
      text
      shift := p.shift + (Text.byteLength patch.text - ((patch.stop : Int) - patch.start))
      covered := patch.stop
    }

/-- The text with the patches applied in order; none if one of them has no range in it. -/
def applyAll? (s : List Char) (patches : List Patch) : Option (List Char) := do
  let p ← patches.foldlM step? { text := s, shift := 0, covered := 0 }
  return p.text

end Patch

end CellGraph.Extraction
