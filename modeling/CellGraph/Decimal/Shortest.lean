import CellGraph.Decimal.Binary64

/-!
# Shortest decimals

The decimal text of a binary64 number: of the decimals that lie within the number's rounding
interval, one with the fewest digits, and of those the nearest. The search is by exact integer
arithmetic: for one digit, two digits and so on it tries the two neighbours of the value on the grid
of that many digits.
-/

namespace CellGraph.Decimal

open Binary64

/-- A positive decimal `digits * 10 ^ (place - (number of digits - 1))`; `place` is the power of ten
of the first digit. -/
structure Scientific where
  digits : Nat
  place : Int
deriving DecidableEq, Repr

/-- The largest `k` with `10 ^ k ≤ num / den`, for positive `num` and `den`, given that `k` is at
least `-lowest`: the number of decimal digits of the quotient scaled by `10 ^ lowest`. -/
def leadingPlace (num den lowest : Nat) : Int :=
  ((Nat.toDigits 10 (num * Nat.pow 10 lowest / den)).length : Int) - 1 - lowest

/-- The rounding interval of the magnitude at a place, with the magnitude itself: lower end, value
and upper end over one common denominator, and whether the ends belong to it. -/
structure Interval where
  low : Nat
  value : Nat
  high : Nat
  den : Nat
  closed : Bool
deriving Repr

/-- The interval of reals that round to the magnitude at a place. Below a power of two the lower gap
is half as wide. -/
def roundingInterval (r : Rank) : Interval :=
  let m := significand r
  let below := if m = Nat.pow 2 52 ∧ Nat.pow 2 53 ≤ r.val then 1 else 2
  let (scale, den) := match exponent r with
    | .ofNat e => (Nat.pow 2 e, 4)
    | .negSucc e => (1, 4 * Nat.pow 2 (e + 1))
  { low := (4 * m - below) * scale
    value := 4 * m * scale
    high := (4 * m + 2) * scale
    den
    closed := m % 2 = 0 }

/-- Whether `c * up / down` lies in the interval. -/
def Interval.holds (i : Interval) (c up down : Nat) : Bool :=
  let x := c * up * i.den
  if i.closed then i.low * down ≤ x && x ≤ i.high * down
  else i.low * down < x && x < i.high * down

/-- The decimal with the given number of digits that lies in the interval and is nearest to its
value, if there is one; of two equally near the even one. -/
def Interval.onGrid? (i : Interval) (place : Int) (count : Nat) : Option Nat :=
  let (up, down) := match place - ((count : Int) - 1) with
    | .ofNat k => (Nat.pow 10 k, 1)
    | .negSucc k => (1, Nat.pow 10 (k + 1))
  let c := i.value * down / (i.den * up)
  let rest := 2 * (i.value * down % (i.den * up))
  let nearer := if rest < i.den * up then c
    else if i.den * up < rest then c + 1
    else if c % 2 = 0 then c else c + 1
  let farther := if nearer = c then c + 1 else c
  if i.holds nearer up down then some nearer
  else if i.holds farther up down then some farther
  else none

/-- The hit on the first grid, from `count` digits on, that meets the interval, with the number of
digits of that grid. Seventeen digits always suffice. -/
def Interval.search (i : Interval) (place : Int) : (fuel count : Nat) → Nat × Nat
  | 0, count => (0, count)
  | fuel + 1, count =>
    match i.onGrid? place count with
    | some digits => (digits, count)
    | none => i.search place fuel (count + 1)

/-- The shortest decimal of the magnitude at a place other than that of zero. A hit that rounds up to
the next power of ten has one digit more than its grid. -/
def shortest (r : Rank) : Scientific :=
  let i := roundingInterval r
  let place := leadingPlace i.value i.den 330
  let (digits, count) := i.search place 17 1
  { digits, place := place + ((Nat.toDigits 10 digits).length - count : Int) }

/-! ## Layout -/

/-- Number text is positional from `10 ^ -5` up to `10 ^ 16` and has an exponent elsewhere. -/
def isPositional (place : Int) : Bool :=
  -5 ≤ place && place < 16

/-- Digits without trailing zeros. -/
def dropTrailingZeros (digits : List Char) : List Char :=
  (digits.reverse.dropWhile (· == '0')).reverse

/-- The text of a positive decimal: positional with at least one digit on either side of the point,
or digits with an exponent that always has a sign. -/
def Scientific.text (d : Scientific) : List Char :=
  let digits := dropTrailingZeros (Nat.toDigits 10 d.digits)
  if isPositional d.place then
    match d.place with
    | .ofNat k =>
      let whole := digits.take (k + 1)
      let fraction := digits.drop (k + 1)
      whole ++ List.replicate (k + 1 - whole.length) '0' ++ '.' ::
        (if fraction = [] then ['0'] else fraction)
    | .negSucc k => '0' :: '.' :: List.replicate k '0' ++ digits
  else
    let mantissa := match digits with
      | first :: second :: more => first :: '.' :: second :: more
      | few => few
    let tail := match d.place with
      | .ofNat k => '+' :: Nat.toDigits 10 k
      | .negSucc k => '-' :: Nat.toDigits 10 (k + 1)
    mantissa ++ 'e' :: tail

/-- The text of a binary64 number. -/
def binary64Text (x : Binary64) : List Char :=
  let magnitude := if x.rank.val = 0 then ['0', '.', '0'] else (shortest x.rank).text
  if x.negative then '-' :: magnitude else magnitude

end CellGraph.Decimal
