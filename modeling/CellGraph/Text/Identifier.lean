/-!
# Identifiers

Which characters may continue an identifier. A keyword in the header of a function is a whole
identifier, so the character after it decides whether it is one.

In ASCII these are the letters, the digits and the underscore. Outside ASCII the characters are those
of a property that grows with each version of Unicode, so they are left open: `IdentifierTable` is
the list that a program is built with, and what is said about reading holds for each such list.
-/

namespace CellGraph.Text

/-- The ranges of characters outside ASCII that continue an identifier. -/
class IdentifierTable where
  ranges : List (Nat × Nat)

/-- Whether a code point lies in one of the given ranges, ends included. -/
def inRanges (ranges : List (Nat × Nat)) (code : Nat) : Bool :=
  ranges.any fun (first, last) => first ≤ code && code ≤ last

/-- Letters, digits and the underscore in ASCII; what the table lists beyond. -/
def continuesIdentifier [IdentifierTable] (c : Char) : Bool :=
  if c.toNat < 0x80 then c.isAlphanum || c == '_'
  else inRanges IdentifierTable.ranges c.toNat

end CellGraph.Text
