/-!
# White space

The characters of the Unicode property `White_Space`, and trimming by them. A cell's declared name,
the header of a function and the slug of a hosted notebook all use this one notion of blank.
-/

namespace CellGraph.Text

/-- The characters with the Unicode property `White_Space`. -/
def isBlank (c : Char) : Bool :=
  let n := c.toNat
  (9 ≤ n && n ≤ 13) || n == 0x20 || n == 0x85 || n == 0xA0 || n == 0x1680 ||
    (0x2000 ≤ n && n ≤ 0x200A) || n == 0x2028 || n == 0x2029 || n == 0x202F || n == 0x205F ||
    n == 0x3000

/-- A space or a tab: the blanks that stay on one line of a function's header. -/
def isInlineBlank (c : Char) : Bool :=
  c == ' ' || c == '\t'

/-- The text without its leading blanks. -/
def trimStart (s : List Char) : List Char :=
  s.dropWhile isBlank

/-- The text without its trailing blanks. -/
def trimEnd (s : List Char) : List Char :=
  (s.reverse.dropWhile isBlank).reverse

/-- The text without leading and trailing blanks. -/
def trim (s : List Char) : List Char :=
  trimEnd (trimStart s)

end CellGraph.Text
