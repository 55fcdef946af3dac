import CellGraph.Json.Basic

/-!
# Numerals

A JSON number as it is written, and the number that it stands for.

A numeral without fraction and exponent is an integer where it fits one of the integer classes; the
numeral `-0` does not, and is the negative zero. Any other numeral is a binary64 number. Its digits
are gathered into a significand below `2 ^ 64`, digits beyond that only count towards the exponent,
and the significand is rounded once and then multiplied or divided by the rounded power of ten. A
numeral too large for a finite number stands for none.
-/

namespace CellGraph.Json

/-- A numeral: sign, digits before the point, digits after it, and the exponent with its sign. -/
structure Numeral where
  negative : Bool
  whole : List Nat
  fraction : Option (List Nat)
  exponent : Option (Bool × List Nat)
deriving DecidableEq, Repr

namespace Numeral

/-! ## Reading -/

/-- The digits at the front of a text, and what follows them. -/
def readDigits : List Char → List Nat × List Char
  | [] => ([], [])
  | c :: s =>
    if c.isDigit then
      let (digits, rest) := readDigits s
      ((c.toNat - 0x30) :: digits, rest)
    else ([], c :: s)

/-- Digits of which there is at least one. -/
def readDigits? (s : List Char) : Option (List Nat × List Char) :=
  match readDigits s with
  | ([], _) => none
  | found => some found

/-- The digits before the point: a zero that stands alone, or digits that start with another one. -/
def readWhole? (s : List Char) : Option (List Nat × List Char) :=
  match readDigits? s with
  | some (0 :: _ :: _, _) => none
  | found => found

/-- The digits after a point, if there is a point. -/
def readFraction? : List Char → Option (Option (List Nat) × List Char)
  | '.' :: s => (readDigits? s).map fun (digits, rest) => (some digits, rest)
  | s => some (none, s)

/-- A sign in front of an exponent's digits; true for a minus. -/
def readSign : List Char → Bool × List Char
  | '+' :: s => (false, s)
  | '-' :: s => (true, s)
  | s => (false, s)

/-- The exponent, if the text goes on with one. -/
def readExponent? : List Char → Option (Option (Bool × List Nat) × List Char)
  | [] => some (none, [])
  | c :: s =>
    if c = 'e' ∨ c = 'E' then
      let (below, s) := readSign s
      (readDigits? s).map fun (digits, rest) => (some (below, digits), rest)
    else some (none, c :: s)

/-- Reads a numeral at the front of a text. -/
def read? (s : List Char) : Option (Numeral × List Char) := do
  let (negative, s) := match s with
    | '-' :: s => (true, s)
    | s => (false, s)
  let (whole, s) ← readWhole? s
  let (fraction, s) ← readFraction? s
  let (exponent, s) ← readExponent? s
  return ({ negative, whole, fraction, exponent }, s)

/-! ## Value -/

/-- Appends digits to a significand as long as it stays below `2 ^ 64`; the digits left over. -/
def gather (significand : Nat) : List Nat → Nat × List Nat
  | [] => (significand, [])
  | d :: ds =>
    if significand * 10 + d < Nat.pow 2 64 then gather (significand * 10 + d) ds
    else (significand, d :: ds)

/-- The rounded power of ten, for exponents up to 308. -/
def powerOfTen? (k : Nat) : Option Binary64.Rank :=
  Binary64.nearest? (Nat.pow 10 k) 1

/-- Divides by `10 ^ k`, by steps of `10 ^ 308` while `k` is larger than that. -/
def divideByPower? : (fuel : Nat) → Binary64.Rank → (k : Nat) → Option Binary64.Rank
  | 0, x, _ => some x
  | fuel + 1, x, k =>
    if k ≤ 308 then do Binary64.dividedBy? x (← powerOfTen? k)
    else if x.val = 0 then some x
    else do divideByPower? fuel (← Binary64.dividedBy? x (← powerOfTen? 308)) (k - 308)

/-- The rounded magnitude `significand * 10 ^ exponent`, if it is finite. -/
def scale? (significand : Nat) (exponent : Int) : Option Binary64.Rank := do
  let x ← Binary64.nearest? significand 1
  match exponent with
  | .ofNat k =>
    if k ≤ 308 then Binary64.times? x (← powerOfTen? k)
    else if x.val = 0 then some x
    else none
  | .negSucc k => divideByPower? ((k + 1) / 308 + 1) x (k + 1)

/-- The exponent of ten that stands for any larger one. -/
def exponentLimit : Nat := Nat.pow 2 31 - 1

/-- The written exponent as an integer, cut off at the limit. -/
def writtenExponent : Option (Bool × List Nat) → Int
  | none => 0
  | some (below, digits) =>
    let k := min (digits.foldl (fun k d => k * 10 + d) 0) exponentLimit
    if below then -(k : Int) else k

/-- Whether the written exponent lies beyond the limit. -/
def beyondLimit : Option (Bool × List Nat) → Bool
  | none => false
  | some (_, digits) => exponentLimit < digits.foldl (fun k d => k * 10 + d) 0

/-- The magnitude of a numeral read as a binary64 number, if it is finite. -/
def magnitude? (n : Numeral) : Option Binary64.Rank :=
  let (significand, skipped) := gather 0 n.whole
  let fraction := n.fraction.getD []
  let (significand, unread) := gather significand fraction
  let places : Int := skipped.length - (fraction.length - unread.length : Nat)
  if beyondLimit n.exponent then
    if significand = 0 ∨ (n.exponent.map Prod.fst) = some true then some Binary64.zeroRank else none
  else scale? significand (places + writtenExponent n.exponent)

/-- The numeral as an integer of its class, if it is written as one and fits. -/
def integer? (n : Numeral) : Option Number :=
  if n.fraction.isSome ∨ n.exponent.isSome then none
  else match gather 0 n.whole with
    | (value, []) =>
      if n.negative then
        if value = 0 then none else Number.ofInt? (-(value : Int))
      else Number.ofInt? value
    | _ => none

/-- The number that a numeral stands for, if it is finite. -/
def value? (n : Numeral) : Option Number :=
  match n.integer? with
  | some i => some i
  | none => n.magnitude?.map fun rank => .float { negative := n.negative, rank }

end Numeral

end CellGraph.Json
