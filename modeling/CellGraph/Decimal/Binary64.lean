/-!
# Finite binary64 numbers

A finite binary64 number is a sign and a place among the finite magnitudes in ascending order. The
place `rank` is the exponent field times `2 ^ 52` plus the fraction field, so the magnitude at a
place is `significand * 2 ^ exponent`, and rounding up is moving to the next place.

All arithmetic here is exact integer arithmetic followed by one rounding, `nearest?`: to the nearest
magnitude, a tie to the even significand, and no answer when the result would not be finite.
-/

namespace CellGraph

/-- A finite binary64 number. -/
structure Binary64 where
  negative : Bool
  rank : Fin (2047 * Nat.pow 2 52)
deriving DecidableEq, Repr

namespace Binary64

/-- The places of the finite magnitudes. -/
abbrev Rank := Fin (2047 * Nat.pow 2 52)

/-- The place of zero. -/
def zeroRank : Rank := ⟨0, by decide⟩

/-- The integer significand of the magnitude at a place. -/
def significand (r : Rank) : Nat :=
  if r.val / Nat.pow 2 52 = 0 then r.val else Nat.pow 2 52 + r.val % Nat.pow 2 52

/-- The power of two that the significand is multiplied by. -/
def exponent (r : Rank) : Int :=
  if r.val / Nat.pow 2 52 = 0 then -1074 else (r.val / Nat.pow 2 52 : Nat) - 1075

/-- The magnitude at a place as a numerator and a positive denominator. -/
def ratio (r : Rank) : Nat × Nat :=
  match exponent r with
  | .ofNat e => (significand r * Nat.pow 2 e, 1)
  | .negSucc e => (significand r, Nat.pow 2 (e + 1))

/-- The quotient rounded to the nearest integer, a tie to the even one. -/
def roundQuotient (num den : Nat) : Nat :=
  let q := num / den
  let twice := 2 * (num % den)
  if twice < den then q
  else if den < twice then q + 1
  else if q % 2 = 0 then q else q + 1

/-- The largest `k` with `2 ^ k ≤ num / den`, for positive `num` and `den`. -/
def floorLog (num den : Nat) : Int :=
  let k : Int := (num.log2 : Int) - (den.log2 : Int)
  let reached := match k with
    | .ofNat k => decide (den * Nat.pow 2 k ≤ num)
    | .negSucc k => decide (den ≤ num * Nat.pow 2 (k + 1))
  if reached then k else k - 1

/-- The place nearest to `num / den`, unless that lies beyond the finite magnitudes. -/
def nearest? (num den : Nat) : Option Rank :=
  if num = 0 then some zeroRank
  else
    let e : Int := max (floorLog num den - 52) (-1074)
    let m := match e with
      | .ofNat e => roundQuotient num (den * Nat.pow 2 e)
      | .negSucc e => roundQuotient (num * Nat.pow 2 (e + 1)) den
    let place := (e + 1074).toNat * Nat.pow 2 52 + m
    if h : place < 2047 * Nat.pow 2 52 then some ⟨place, h⟩ else none

/-- The rounded product of two magnitudes. -/
def times? (a b : Rank) : Option Rank :=
  nearest? ((ratio a).1 * (ratio b).1) ((ratio a).2 * (ratio b).2)

/-- The rounded quotient of two magnitudes. -/
def dividedBy? (a b : Rank) : Option Rank :=
  nearest? ((ratio a).1 * (ratio b).2) ((ratio a).2 * (ratio b).1)

/-- Numerical equality, under which both zeros are one number. -/
def same (a b : Binary64) : Bool :=
  a.rank == b.rank && (a.negative == b.negative || a.rank.val == 0)

end Binary64

end CellGraph
