import CellGraph.Json.Numeral

/-!
# JSON as written

`Raw` is a JSON text taken apart but not yet understood: fields in the order of the text, with
repeated keys; a number that is out of range and a string that holds half a surrogate pair are kept
as values that stand for nothing. A part of a text that nobody asks for may hold such values;
`value?` refuses them.

Reading consumes the text from the front. Each step of the reader uses up a unit of fuel, and a text
needs at most two steps a character.
-/

namespace CellGraph.Json

/-- A JSON text taken apart. -/
inductive Raw where
  | null
  | bool (b : Bool)
  /-- A number, or none if it is out of range. -/
  | number (n : Option Number)
  /-- A string, or none if it holds half a surrogate pair. -/
  | string (s : Option String)
  | array (items : List Raw)
  | object (fields : List (Option String × Raw))
deriving Repr, Inhabited

namespace Raw

/-! ## Strings -/

/-- A unit of a string: a character, or half a surrogate pair. -/
inductive Piece where
  | char (c : Char)
  | half (n : Nat)
deriving DecidableEq, Repr

/-- The value of a hexadecimal digit of either case. -/
def hexValue? (c : Char) : Option Nat :=
  if c.isDigit then some (c.toNat - 0x30)
  else if 'a' ≤ c ∧ c ≤ 'f' then some (c.toNat - 0x57)
  else if 'A' ≤ c ∧ c ≤ 'F' then some (c.toNat - 0x37)
  else none

/-- The unit with a 16-bit code. -/
def Piece.ofCode (n : Nat) : Piece :=
  if 0xD800 ≤ n ∧ n < 0xE000 then .half n else .char (Char.ofNat n)

/-- The unit that an escape of one letter stands for. -/
def simpleEscape? (c : Char) : Option Char :=
  match c with
  | '"' => some '"'
  | '\\' => some '\\'
  | '/' => some '/'
  | 'b' => some '\x08'
  | 'f' => some '\x0c'
  | 'n' => some '\n'
  | 'r' => some '\r'
  | 't' => some '\t'
  | _ => none

/-- The units up to the closing quote, and the text after it. -/
def readPieces? : List Char → Option (List Piece × List Char)
  | [] => none
  | '"' :: s => some ([], s)
  | '\\' :: 'u' :: a :: b :: c :: d :: s => do
    let code := (← hexValue? a) * 4096 + (← hexValue? b) * 256 + (← hexValue? c) * 16 + (← hexValue? d)
    let (pieces, rest) ← readPieces? s
    return (Piece.ofCode code :: pieces, rest)
  | '\\' :: c :: s => do
    let e ← simpleEscape? c
    let (pieces, rest) ← readPieces? s
    return (.char e :: pieces, rest)
  | c :: s =>
    if c.toNat < 0x20 ∨ c = '\\' then none
    else do
      let (pieces, rest) ← readPieces? s
      return (.char c :: pieces, rest)

/-- The characters of the units: two halves of a pair in order make one character, and a half that
stands alone makes none. -/
def joinPieces? : List Piece → Option (List Char)
  | [] => some []
  | .char c :: pieces => (joinPieces? pieces).map (c :: ·)
  | .half high :: .half low :: pieces =>
    if high < 0xDC00 ∧ 0xDC00 ≤ low then
      (joinPieces? pieces).map
        (Char.ofNat (0x10000 + (high - 0xD800) * 0x400 + (low - 0xDC00)) :: ·)
    else none
  | .half _ :: _ => none

/-- Reads a string after its opening quote. -/
def readString? (s : List Char) : Option (Option String × List Char) :=
  (readPieces? s).map fun (pieces, rest) => ((joinPieces? pieces).map String.ofList, rest)

/-! ## Values -/

/-- The four blanks of JSON. -/
def isSpace (c : Char) : Bool :=
  c == ' ' || c == '\t' || c == '\n' || c == '\r'

/-- The text after the blanks at its front. -/
def skipSpace (s : List Char) : List Char :=
  s.dropWhile isSpace

/-- Reads a word or a number. -/
def readScalar? : List Char → Option (Raw × List Char)
  | 'n' :: 'u' :: 'l' :: 'l' :: s => some (null, s)
  | 't' :: 'r' :: 'u' :: 'e' :: s => some (bool true, s)
  | 'f' :: 'a' :: 'l' :: 's' :: 'e' :: s => some (bool false, s)
  | s => (Numeral.read? s).map fun (n, rest) => (number n.value?, rest)

mutual

/-- Reads a value after blanks. -/
def readValue? : (fuel : Nat) → List Char → Option (Raw × List Char)
  | 0, _ => none
  | fuel + 1, s =>
    match skipSpace s with
    | '"' :: s => (readString? s).map fun (text, rest) => (string text, rest)
    | '[' :: s =>
      match skipSpace s with
      | ']' :: rest => some (array [], rest)
      | s => (readItems? fuel s).map fun (items, rest) => (array items, rest)
    | '{' :: s =>
      match skipSpace s with
      | '}' :: rest => some (object [], rest)
      | s => (readFields? fuel s).map fun (fields, rest) => (object fields, rest)
    | s => readScalar? s

/-- Reads the items of an array, at least one, and the closing bracket. -/
def readItems? : (fuel : Nat) → List Char → Option (List Raw × List Char)
  | 0, _ => none
  | fuel + 1, s => do
    let (item, s) ← readValue? fuel s
    match skipSpace s with
    | ']' :: rest => return ([item], rest)
    | ',' :: s =>
      let (items, rest) ← readItems? fuel s
      return (item :: items, rest)
    | _ => none

/-- Reads the fields of an object, at least one, and the closing brace. -/
def readFields? : (fuel : Nat) → List Char → Option (List (Option String × Raw) × List Char)
  | 0, _ => none
  | fuel + 1, s =>
    match skipSpace s with
    | '"' :: s => do
      let (key, s) ← readString? s
      let s ← match skipSpace s with
        | ':' :: s => some s
        | _ => none
      let (value, s) ← readValue? fuel s
      match skipSpace s with
      | '}' :: rest => return ([(key, value)], rest)
      | ',' :: s =>
        let (fields, rest) ← readFields? fuel s
        return ((key, value) :: fields, rest)
      | _ => none
    | _ => none

end

/-- Takes a whole text apart: one value and nothing but blanks around it. -/
def parse? (text : String) : Option Raw :=
  match readValue? (2 * text.length + 2) text.toList with
  | some (raw, rest) => if skipSpace rest = [] then some raw else none
  | none => none

/-! ## Understanding

A value may be nested only so deep: `levels` is the number of arrays and objects that may still be
opened. -/

/-- How deep a text may be nested. -/
def maxDepth : Nat := 127

mutual

/-- The value of a text, if every part of it stands for something. -/
def value? (levels : Nat) : Raw → Option Json
  | null => some .null
  | bool b => some (.bool b)
  | number n => n.map .number
  | string s => s.map .string
  | array items =>
    match levels with
    | 0 => none
    | levels + 1 => (items? levels items).map .array
  | object fields =>
    match levels with
    | 0 => none
    | levels + 1 => (fields? levels fields).map fun fields => .object (sortFields fields)

/-- The values of the items. -/
def items? (levels : Nat) : List Raw → Option (List Json)
  | [] => some []
  | item :: items => do return (← value? levels item) :: (← items? levels items)

/-- The fields with their values, in the order of the text. -/
def fields? (levels : Nat) : List (Option String × Raw) → Option (List (String × Json))
  | [] => some []
  | (key, value) :: fields => do
    return (← key, ← value? levels value) :: (← fields? levels fields)

end

mutual

/-- A value as a text that says it. -/
def ofJson : Json → Raw
  | .null => null
  | .bool b => bool b
  | .number n => number (some n)
  | .string s => string (some s)
  | .array items => array (ofItems items)
  | .object fields => object (ofFields fields)

/-- The items as texts. -/
def ofItems : List Json → List Raw
  | [] => []
  | item :: items => ofJson item :: ofItems items

/-- The fields as texts. -/
def ofFields : List (String × Json) → List (Option String × Raw)
  | [] => []
  | (key, value) :: fields => (some key, ofJson value) :: ofFields fields

end

mutual

/-- The number of arrays and objects around the innermost part. -/
def depth : Raw → Nat
  | array items => depthItems items + 1
  | object fields => depthFields fields + 1
  | _ => 0

/-- The depth of the deepest item. -/
def depthItems : List Raw → Nat
  | [] => 0
  | item :: items => max (depth item) (depthItems items)

/-- The depth of the deepest field. -/
def depthFields : List (Option String × Raw) → Nat
  | [] => 0
  | (_, value) :: fields => max (depth value) (depthFields fields)

end

end Raw

/-- Reads a JSON text. -/
def parse? (text : String) : Option Json :=
  (Raw.parse? text).bind (Raw.value? Raw.maxDepth)

end CellGraph.Json
