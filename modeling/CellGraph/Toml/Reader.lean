import CellGraph.Decimal.Binary64
import CellGraph.Json.Raw
import CellGraph.Toml.Basic

/-!
# Reading TOML

Reads a TOML 1.0 document from its text. Every reader takes characters from the front and hands on
the rest. Loops use up fuel, of which a text needs no more than its length and a little.
-/

namespace CellGraph.Toml

/-- A reader: what it found and the text after it. -/
abbrev Scan (α : Type) := List Char → Option (α × List Char)

/-! ## Blanks, line ends and comments -/

/-- A space or a tab. -/
def isBlank (c : Char) : Bool :=
  c == ' ' || c == '\t'

/-- The text after the blanks at its front. -/
def skipBlanks (s : List Char) : List Char :=
  s.dropWhile isBlank

/-- What may stand in a comment or a string: no control character but the tab. -/
def isPrintable (c : Char) : Bool :=
  c == '\t' || (0x20 ≤ c.toNat && c.toNat != 0x7F)

/-- The text after a line end, if one stands at its front. -/
def lineEnd? : List Char → Option (List Char)
  | '\n' :: s => some s
  | '\r' :: '\n' :: s => some s
  | _ => none

/-- The text after a comment, if one stands at its front; the line end stays. -/
def skipComment : List Char → List Char
  | '#' :: s => s.dropWhile isPrintable
  | s => s

/-- The text after the end of a statement: blanks, a comment, and a line end unless the text ends. -/
def statementEnd? (s : List Char) : Option (List Char) :=
  match skipComment (skipBlanks s) with
  | [] => some []
  | s => lineEnd? s

/-- The text after blanks, line ends and comments. -/
def skipLines : (fuel : Nat) → List Char → List Char
  | 0, s => s
  | fuel + 1, s =>
    match skipComment (skipBlanks s) with
    | [] => []
    | s => match lineEnd? s with
      | some rest => skipLines fuel rest
      | none => s

/-! ## Strings -/

/-- A character with a code, if it is one. -/
def charOf? (n : Nat) : Option Char :=
  if n < 0xD800 ∨ 0xE000 ≤ n ∧ n < 0x110000 then some (Char.ofNat n) else none

/-- The value of hexadecimal digits. -/
def hexNumber? (digits : List Char) : Option Nat :=
  digits.foldlM (fun n c => (Json.Raw.hexValue? c).map (n * 16 + ·)) 0

/-- Reads an escape after its backslash. -/
def escape? : Scan Char
  | 'b' :: s => some ('\x08', s)
  | 't' :: s => some ('\t', s)
  | 'n' :: s => some ('\n', s)
  | 'f' :: s => some ('\x0c', s)
  | 'r' :: s => some ('\r', s)
  | '"' :: s => some ('"', s)
  | '\\' :: s => some ('\\', s)
  | 'u' :: s => do
    guard (4 ≤ s.length)
    return (← charOf? (← hexNumber? (s.take 4)), s.drop 4)
  | 'U' :: s => do
    guard (8 ≤ s.length)
    return (← charOf? (← hexNumber? (s.take 8)), s.drop 8)
  | _ => none

/-- Reads a string on one line with escapes, after its opening quote. -/
def basicString? : (fuel : Nat) → Scan (List Char)
  | 0, _ => none
  | _ + 1, [] => none
  | _ + 1, '"' :: s => some ([], s)
  | fuel + 1, '\\' :: s => do
    let (c, s) ← escape? s
    let (text, rest) ← basicString? fuel s
    return (c :: text, rest)
  | fuel + 1, c :: s => do
    guard (isPrintable c)
    let (text, rest) ← basicString? fuel s
    return (c :: text, rest)

/-- Reads a string on one line without escapes, after its opening quote. -/
def literalString? (s : List Char) : Option (List Char × List Char) :=
  let text := s.takeWhile fun c => isPrintable c && c.toNat != 0x27
  match s.drop text.length with
  | c :: rest => if c.toNat = 0x27 then some (text, rest) else none
  | [] => none

/-- How a string over several lines ends: three quotes, before which up to two belong to the text. -/
def closing? (quote : Char) (s : List Char) : Option (List Char × List Char) :=
  let quotes := s.takeWhile (· == quote)
  if quotes.length < 3 then none
  else
    let own := min (quotes.length - 3) 2
    some (List.replicate own quote, s.drop (own + 3))

/-- The text after blanks and line ends. -/
def skipBreaks : (fuel : Nat) → List Char → List Char
  | 0, s => s
  | fuel + 1, s =>
    match lineEnd? (skipBlanks s) with
    | some rest => skipBreaks fuel rest
    | none => skipBlanks s

/-- Reads a string over several lines, after its opening quotes and the line end there. With escapes,
a backslash at the end of a line joins it to the next text. -/
def longString? (quote : Char) (escapes : Bool) : (fuel : Nat) → Scan (List Char)
  | 0, _ => none
  | fuel + 1, s =>
    match closing? quote s with
    | some found => some found
    | none =>
      match lineEnd? s with
      | some rest => (longString? quote escapes fuel rest).map fun (text, rest) => ('\n' :: text, rest)
      | none =>
        match s with
        | [] => none
        | c :: s =>
          if c = '\\' ∧ escapes then
            match lineEnd? (skipBlanks s) with
            | some rest => longString? quote escapes fuel (skipBreaks s.length rest)
            | none => do
              let (c, s) ← escape? s
              let (text, rest) ← longString? quote escapes fuel s
              return (c :: text, rest)
          else do
            guard (isPrintable c)
            let (text, rest) ← longString? quote escapes fuel s
            return (c :: text, rest)

/-- The text after a line end, or the text itself. -/
def skipLineEnd (s : List Char) : List Char :=
  (lineEnd? s).getD s

/-- Reads a string of any of the four kinds. -/
def string? (s : List Char) : Option (String × List Char) :=
  let made : Option (List Char × List Char) → Option (String × List Char) :=
    Option.map fun (text, rest) => (String.ofList text, rest)
  match s with
  | '"' :: '"' :: '"' :: s => made (longString? '"' true (s.length + 1) (skipLineEnd s))
  | '"' :: s => made (basicString? (s.length + 1) s)
  | a :: b :: c :: rest =>
    if a.toNat = 0x27 ∧ b.toNat = 0x27 ∧ c.toNat = 0x27 then
      made (longString? a false (rest.length + 1) (skipLineEnd rest))
    else if a.toNat = 0x27 then made (literalString? (b :: c :: rest))
    else none
  | a :: rest => if a.toNat = 0x27 then made (literalString? rest) else none
  | [] => none

/-! ## Keys -/

/-- The characters of a key without quotes. -/
def isBare (c : Char) : Bool :=
  c.isAlphanum || c == '_' || c == '-'

/-- Reads one step of a key. -/
def step? (s : List Char) : Option (String × List Char) :=
  match s with
  | '"' :: s => (basicString? (s.length + 1) s).map fun (text, rest) => (String.ofList text, rest)
  | c :: rest =>
    if c.toNat = 0x27 then
      (literalString? rest).map fun (text, rest) => (String.ofList text, rest)
    else
      let text := s.takeWhile isBare
      if text = [] then none else some (String.ofList text, s.drop text.length)
  | [] => none

/-- The largest number of steps of a key, and of arrays and inline tables in each other. -/
def maxDepth : Nat := 79

/-- Reads a key of steps with dots between them, and the blanks around them. -/
def key? : (fuel : Nat) → Scan (List String)
  | 0, _ => none
  | fuel + 1, s => do
    let (step, s) ← step? (skipBlanks s)
    match skipBlanks s with
    | '.' :: s =>
      let (steps, rest) ← key? fuel s
      return (step :: steps, rest)
    | s => return ([step], s)

/-! ## Numbers and dates -/

/-- Digits with single underscores between them, after at least one digit; without the
underscores. -/
def groupedDigits? (isDigit : Char → Bool) : List Char → Option (List Char × List Char)
  | [] => none
  | c :: s =>
    if isDigit c then some (go c s) else none
where
  /-- The digits from a first one on. -/
  go (c : Char) : List Char → List Char × List Char
    | '_' :: d :: s =>
      if isDigit d then
        let (digits, rest) := go d s
        (c :: digits, rest)
      else ([c], '_' :: d :: s)
    | d :: s =>
      if isDigit d then
        let (digits, rest) := go d s
        (c :: digits, rest)
      else ([c], d :: s)
    | [] => ([c], [])

/-- The value of digits in a base. -/
def digitsValue (base : Nat) (digits : List Char) : Nat :=
  digits.foldl (fun n c => n * base + (Json.Raw.hexValue? c).getD 0) 0

/-- A sign; true for a minus. -/
def sign : List Char → Bool × List Char
  | '+' :: s => (false, s)
  | '-' :: s => (true, s)
  | s => (false, s)

/-- Decimal digits without a leading zero. -/
def decimalDigits? : Scan (List Char)
  | '0' :: s => some (['0'], s)
  | s => groupedDigits? Char.isDigit s

/-- An integer, if it fits in 64 bits. -/
def fitting? (i : Int) : Option Int :=
  if -Nat.pow 2 63 ≤ i ∧ i < Nat.pow 2 63 then some i else none

/-- Reads an integer. -/
def integer? (s : List Char) : Option (Int × List Char) :=
  let based (base : Nat) (isDigit : Char → Bool) (s : List Char) := do
    let (digits, rest) ← groupedDigits? isDigit s
    return (← fitting? (digitsValue base digits), rest)
  match s with
  | '0' :: 'x' :: s => based 16 (fun c => (Json.Raw.hexValue? c).isSome) s
  | '0' :: 'o' :: s => based 8 (fun c => '0' ≤ c && c ≤ '7') s
  | '0' :: 'b' :: s => based 2 (fun c => c == '0' || c == '1') s
  | s => do
    let (below, s) := sign s
    let (digits, rest) ← decimalDigits? s
    let n := digitsValue 10 digits
    return (← fitting? (if below then -(n : Int) else n), rest)

/-- Whether `digits * 10 ^ exponent` is finite as a binary64 number. -/
def isFinite (digits : Nat) (exponent : Int) : Bool :=
  let size : Int := (Nat.toDigits 10 digits).length + exponent
  if digits = 0 ∨ size < 300 then true
  else if 320 < size then false
  else match exponent with
    | .ofNat k => (Binary64.nearest? (digits * Nat.pow 10 k) 1).isSome
    | .negSucc k => (Binary64.nearest? digits (Nat.pow 10 (k + 1))).isSome

/-- The digits after a point, if there is a point. -/
def fraction? : Scan (List Char)
  | '.' :: s => groupedDigits? Char.isDigit s
  | s => some ([], s)

/-- The exponent, if the text goes on with one. -/
def exponent? : Scan (Option Int)
  | [] => some (none, [])
  | c :: s =>
    if c = 'e' ∨ c = 'E' then
      let (below, s) := sign s
      (groupedDigits? Char.isDigit s).map fun (digits, rest) =>
        let k : Int := digitsValue 10 digits
        (some (if below then -k else k), rest)
    else some (none, c :: s)

/-- Reads a real: a fraction, an exponent or both, or one of the two words. A positive real may not
be too large. -/
def real? (s : List Char) : Option (Unit × List Char) := do
  let (below, s) := sign s
  match s with
  | 'i' :: 'n' :: 'f' :: rest => return ((), rest)
  | 'n' :: 'a' :: 'n' :: rest => return ((), rest)
  | _ =>
    let (whole, s) ← decimalDigits? s
    let (fraction, s) ← fraction? s
    let (exponent, s) ← exponent? s
    guard (fraction ≠ [] ∨ exponent.isSome)
    guard (below ∨ isFinite (digitsValue 10 (whole ++ fraction))
      (exponent.getD 0 - (fraction.length : Int)))
    return ((), s)

/-- Reads a number of two digits within bounds. -/
def twoDigits? (low high : Nat) : Scan Nat
  | a :: b :: s => do
    guard (a.isDigit ∧ b.isDigit)
    let n := digitsValue 10 [a, b]
    guard (low ≤ n ∧ n ≤ high)
    return (n, s)
  | _ => none

/-- The text after a character that has to stand at its front. -/
def expect? (c : Char) : List Char → Option (List Char)
  | d :: s => if d = c then some s else none
  | [] => none

/-- The last day of a month. -/
def lastDay (year month : Nat) : Nat :=
  if month = 2 then
    if year % 4 = 0 ∧ (year % 100 ≠ 0 ∨ year % 400 = 0) then 29 else 28
  else if month ∈ [4, 6, 9, 11] then 30
  else 31

/-- The text after a day, if one stands at its front. -/
def day? (s : List Char) : Option (List Char) := do
  guard (4 ≤ s.length ∧ (s.take 4).all Char.isDigit)
  let s' ← expect? '-' (s.drop 4)
  let (month, s') ← twoDigits? 1 12 s'
  let s' ← expect? '-' s'
  let (_, s') ← twoDigits? 1 (lastDay (digitsValue 10 (s.take 4)) month) s'
  return s'

/-- The text after a time of day, if one stands at its front. -/
def time? (s : List Char) : Option (List Char) := do
  let (_, s) ← twoDigits? 0 23 s
  let s ← expect? ':' s
  let (_, s) ← twoDigits? 0 59 s
  let s ← expect? ':' s
  let (_, s) ← twoDigits? 0 60 s
  match s with
  | '.' :: c :: rest => if c.isDigit then return rest.dropWhile Char.isDigit else return s
  | s => return s

/-- The text after an offset from universal time, or none if a sign has no offset after it. -/
def offset? (s : List Char) : Option (List Char) :=
  match s with
  | [] => some []
  | c :: rest =>
    if c = 'Z' ∨ c = 'z' then some rest
    else if c = '+' ∨ c = '-' then do
      let (_, s) ← twoDigits? 0 23 rest
      let s ← expect? ':' s
      let (_, s) ← twoDigits? 0 59 s
      return s
    else some s

/-- The text after a date, a time or both, if one stands at its front. -/
def date? (s : List Char) : Option (List Char) :=
  match day? s with
  | some rest =>
    match rest with
    | c :: after =>
      if c = 'T' ∨ c = 't' ∨ c = ' ' then
        match time? after with
        | some rest => offset? rest
        | none => some rest
      else some rest
    | [] => some []
  | none => time? s

/-! ## Values -/

/-- Reads a value without parts. -/
def scalar? (s : List Char) : Option (Item × List Char) :=
  match s with
  | 't' :: 'r' :: 'u' :: 'e' :: rest => some (.boolean true, rest)
  | 'f' :: 'a' :: 'l' :: 's' :: 'e' :: rest => some (.boolean false, rest)
  | _ =>
    match string? s with
    | some (text, rest) => some (.string text, rest)
    | none =>
      match date? s with
      | some rest => some (.date, rest)
      | none =>
        match real? s with
        | some (_, rest) => some (.real, rest)
        | none => (integer? s).map fun (i, rest) => (.integer i, rest)

mutual

/-- Reads a value, inside at most so many further arrays and inline tables. -/
def value? : (fuel levels : Nat) → Scan Item
  | 0, _, _ => none
  | fuel + 1, levels, s =>
    match s with
    | '[' :: s => do
      guard (0 < levels)
      let (items, rest) ← items? fuel (levels - 1) (skipLines s.length s)
      return (.array items, rest)
    | '{' :: s => do
      guard (0 < levels)
      match skipBlanks s with
      | '}' :: rest => return (.table .inline [], rest)
      | s =>
        let (fields, rest) ← fields? fuel (levels - 1) [] s
        return (.table .inline fields, rest)
    | s => scalar? s

/-- Reads the items of an array up to its end; a comma may stand after the last one. -/
def items? : (fuel levels : Nat) → Scan (List Item)
  | 0, _, _ => none
  | fuel + 1, levels, s =>
    match s with
    | ']' :: rest => some ([], rest)
    | s => do
      let (item, s) ← value? fuel levels s
      match skipLines s.length s with
      | ',' :: s =>
        let (items, rest) ← items? fuel levels (skipLines s.length s)
        return (item :: items, rest)
      | ']' :: rest => return ([item], rest)
      | _ => none

/-- Reads the fields of an inline table up to its end, at least one. -/
def fields? : (fuel levels : Nat) → Fields → Scan Fields
  | 0, _, _, _ => none
  | fuel + 1, levels, fields, s => do
    let (key, s) ← key? (s.length + 1) s
    guard (key.length ≤ maxDepth)
    let s ← expect? '=' s
    let (item, s) ← value? fuel levels (skipBlanks s)
    let fields ← fields.addValue? (key.getLastD "") item key.dropLast
    match skipBlanks s with
    | ',' :: s => fields? fuel levels fields s
    | '}' :: rest => return (fields, rest)
    | _ => none

end

/-! ## Documents -/

/-- A document in the middle of being read: all fields, and the header that is open. -/
structure Draft where
  root : Fields := []
  header : List String := []

/-- Reads a header's key and its closing brackets, to the end of the statement. -/
def header? (closing : List Char) (s : List Char) : Option (List String × List Char) := do
  let (key, s) ← key? (s.length + 1) s
  guard (key.length ≤ maxDepth)
  let s ← closing.foldlM (fun s c => expect? c s) s
  return (key, ← statementEnd? s)

/-- Reads one statement, which starts with no blank and is not empty. -/
def statement? (d : Draft) (s : List Char) : Option (Draft × List Char) :=
  match s with
  | '[' :: '[' :: s => do
    let (key, rest) ← header? [']', ']'] s
    let root ← d.root.follow? (Fields.openElement? (key.getLastD "")) key.dropLast
    return ({ root, header := key }, rest)
  | '[' :: s => do
    let (key, rest) ← header? [']'] s
    let root ← d.root.follow? (Fields.openTable? (key.getLastD "")) key.dropLast
    return ({ root, header := key }, rest)
  | s => do
    let (key, s) ← key? (s.length + 1) s
    guard (key.length ≤ maxDepth)
    let s ← expect? '=' s
    let s := skipBlanks s
    let (item, s) ← value? (2 * s.length + 2) maxDepth s
    let root ← d.root.follow? (Fields.addValue? (key.getLastD "") item key.dropLast) d.header
    return ({ d with root }, ← statementEnd? s)

/-- Reads statements to the end of the text. -/
def statements? : (fuel : Nat) → Draft → List Char → Option Draft
  | 0, _, _ => none
  | fuel + 1, d, s =>
    match skipLines s.length s with
    | [] => some d
    | s => do
      let (d, rest) ← statement? d s
      statements? fuel d rest

/-- Reads a document; a byte order mark in front of it does not count. -/
def parse? (text : String) : Option Fields :=
  let s := match text.toList with
    | c :: s => if c.toNat = 0xFEFF then s else c :: s
    | [] => []
  (statements? (s.length + 1) {} s).map Draft.root

end CellGraph.Toml
