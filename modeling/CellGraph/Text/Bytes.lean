/-!
# Byte offsets

Offsets into a text count the bytes of its UTF-8 form. An offset is usable only where a character
starts or the text ends; `cut?` divides a text at such an offset and refuses every other one, and
`slice?` takes the part between two of them.
-/

namespace CellGraph.Text

/-- The number of bytes of a text in UTF-8. -/
def byteLength : List Char → Nat
  | [] => 0
  | c :: s => c.utf8Size + byteLength s

/-- Divides a text at a byte offset, if a character starts there or the text ends there. -/
def cut? (offset : Nat) : List Char → Option (List Char × List Char)
  | [] => if offset = 0 then some ([], []) else none
  | c :: s =>
    if offset = 0 then some ([], c :: s)
    else if c.utf8Size ≤ offset then
      (cut? (offset - c.utf8Size) s).map fun (front, back) => (c :: front, back)
    else none

/-- The text between two byte offsets, if both are usable and in order. -/
def slice? (s : List Char) (start stop : Nat) : Option (List Char) := do
  guard (start ≤ stop)
  let (front, _) ← cut? stop s
  let (_, middle) ← cut? start front
  return middle

end CellGraph.Text
