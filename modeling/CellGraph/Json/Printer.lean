import CellGraph.Json.Basic
import CellGraph.Decimal.Shortest

/-!
# JSON text

Two layouts of a value as text: `compact` has no blanks; `pretty` has one item or field a line,
indented by two spaces a level, and closes an empty array or object at once. Both write strings alike:
quote, backslash and the control characters are escaped, everything else stands for itself.
-/

namespace CellGraph.Json

/-- The lower-case hexadecimal digit of a number below sixteen. -/
def lowerHexDigit (n : Nat) : Char :=
  Char.ofNat (if n < 10 then 0x30 + n else 0x57 + n)

/-- One character inside a string's quotes. -/
def escapeChar (c : Char) : List Char :=
  match c.toNat with
  | 0x22 => ['\\', '"']
  | 0x5C => ['\\', '\\']
  | 0x08 => ['\\', 'b']
  | 0x0C => ['\\', 'f']
  | 0x0A => ['\\', 'n']
  | 0x0D => ['\\', 'r']
  | 0x09 => ['\\', 't']
  | n =>
    if n < 0x20 then ['\\', 'u', '0', '0', lowerHexDigit (n / 16), lowerHexDigit (n % 16)]
    else [c]

/-- A string in quotes. -/
def quoted (s : String) : List Char :=
  '"' :: s.toList.flatMap escapeChar ++ ['"']

/-- The text of a number. -/
def Number.text : Number → List Char
  | natural n => Nat.toDigits 10 n.val
  | negative n => '-' :: Nat.toDigits 10 (n.val + 1)
  | float x => Decimal.binary64Text x

/-- The text of a value without parts. -/
def scalarText : Json → List Char
  | null => ['n', 'u', 'l', 'l']
  | bool true => ['t', 'r', 'u', 'e']
  | bool false => ['f', 'a', 'l', 's', 'e']
  | number n => n.text
  | string s => quoted s
  | array _ => ['[', ']']
  | object _ => ['{', '}']

/-! ## Compact -/

mutual

/-- The characters of the compact layout. -/
def compactChars : Json → List Char
  | array items => '[' :: compactItems items ++ [']']
  | object fields => '{' :: compactFields fields ++ ['}']
  | scalar => scalarText scalar

/-- Items with commas between them. -/
def compactItems : List Json → List Char
  | [] => []
  | [item] => compactChars item
  | item :: items => compactChars item ++ ',' :: compactItems items

/-- Fields with commas between them. -/
def compactFields : List (String × Json) → List Char
  | [] => []
  | [(key, value)] => quoted key ++ ':' :: compactChars value
  | (key, value) :: fields => quoted key ++ ':' :: compactChars value ++ ',' :: compactFields fields

end

/-- The value on one line without blanks. -/
def compact (j : Json) : String :=
  String.ofList j.compactChars

/-! ## Pretty -/

/-- A line break and the indentation of a level. -/
def lineStart (level : Nat) : List Char :=
  '\n' :: List.replicate (2 * level) ' '

mutual

/-- The characters of the pretty layout, inside `level` open brackets. -/
def prettyChars (level : Nat) : Json → List Char
  | array (item :: items) => '[' :: prettyItems (level + 1) (item :: items) ++ lineStart level ++ [']']
  | object (field :: fields) =>
    '{' :: prettyFields (level + 1) (field :: fields) ++ lineStart level ++ ['}']
  | scalar => scalarText scalar

/-- Items, each on a line of its own. -/
def prettyItems (level : Nat) : List Json → List Char
  | [] => []
  | [item] => lineStart level ++ prettyChars level item
  | item :: items => lineStart level ++ prettyChars level item ++ ',' :: prettyItems level items

/-- Fields, each on a line of its own. -/
def prettyFields (level : Nat) : List (String × Json) → List Char
  | [] => []
  | [(key, value)] => lineStart level ++ quoted key ++ ':' :: ' ' :: prettyChars level value
  | (key, value) :: fields =>
    lineStart level ++ quoted key ++ ':' :: ' ' :: prettyChars level value ++
      ',' :: prettyFields level fields

end

/-- The value with one item or field a line. -/
def pretty (j : Json) : String :=
  String.ofList (j.prettyChars 0)

end CellGraph.Json
