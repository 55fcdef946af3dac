import CellGraph.Decimal.Binary64

/-!
# JSON values

Numbers come in three classes that are never equal to each other: natural numbers below `2 ^ 64`,
negative integers from `-2 ^ 63`, and finite binary64 numbers. An object keeps its fields in the
order of its list; the values that are read have their keys sorted by code point, each key once
(`insertField`).
-/

namespace CellGraph

/-- A JSON number, by class. -/
inductive Json.Number where
  | natural (n : Fin (Nat.pow 2 64))
  /-- The integer `-(n + 1)`. -/
  | negative (n : Fin (Nat.pow 2 63))
  | float (x : Binary64)
deriving DecidableEq, Repr

/-- A JSON value. -/
inductive Json where
  | null
  | bool (b : Bool)
  | number (n : Json.Number)
  | string (s : String)
  | array (items : List Json)
  | object (fields : List (String × Json))
deriving Repr, Inhabited

namespace Json

/-! ## Numbers -/

namespace Number

/-- The number with an integer value, if it is in range. -/
def ofInt? : Int → Option Number
  | .ofNat n => if h : n < Nat.pow 2 64 then some (natural ⟨n, h⟩) else none
  | .negSucc n => if h : n < Nat.pow 2 63 then some (negative ⟨n, h⟩) else none

/-- The value of a number of the two integer classes. -/
def toInt? : Number → Option Int
  | natural n => some n.val
  | negative n => some (.negSucc n.val)
  | float _ => none

/-- Equality of numbers: by class, and numerically for floats, so that both zeros are equal. -/
def same : Number → Number → Bool
  | natural a, natural b => a == b
  | negative a, negative b => a == b
  | float a, float b => a.same b
  | _, _ => false

end Number

/-- The number of a natural, which is to be below `2 ^ 64`. -/
def ofNat (n : Nat) : Json :=
  .number (.natural (Fin.ofNat (Nat.pow 2 64) n))

/-! ## Equality

Values are equal when they have the same shape, with numbers compared by `Number.same`. -/

mutual

/-- Equality of values. -/
def same : Json → Json → Bool
  | null, null => true
  | bool a, bool b => a == b
  | number a, number b => a.same b
  | string a, string b => a == b
  | array a, array b => sameItems a b
  | object a, object b => sameFields a b
  | _, _ => false

/-- Equality of lists of values. -/
def sameItems : List Json → List Json → Bool
  | [], [] => true
  | a :: as, b :: bs => same a b && sameItems as bs
  | _, _ => false

/-- Equality of lists of fields. -/
def sameFields : List (String × Json) → List (String × Json) → Bool
  | [], [] => true
  | (k, a) :: as, (l, b) :: bs => k == l && same a b && sameFields as bs
  | _, _ => false

end

/-! ## Fields -/

/-- Puts a field in its place by key, in place of a field of that key. -/
def insertField (key : String) (value : Json) : List (String × Json) → List (String × Json)
  | [] => [(key, value)]
  | (k, v) :: rest =>
    if key < k then (key, value) :: (k, v) :: rest
    else if key = k then (key, value) :: rest
    else (k, v) :: insertField key value rest

/-- The fields sorted by key, the last value of each key. -/
def sortFields (fields : List (String × Json)) : List (String × Json) :=
  fields.foldl (fun sorted (key, value) => insertField key value sorted) []

/-- The value of a field of an object. -/
def field? (key : String) : Json → Option Json
  | object fields => fields.lookup key
  | _ => none

/-- The text of a string. -/
def string? : Json → Option String
  | string s => some s
  | _ => none

/-- The items of an array. -/
def array? : Json → Option (List Json)
  | array items => some items
  | _ => none

/-- The value of a Boolean. -/
def bool? : Json → Option Bool
  | bool b => some b
  | _ => none

/-- The value of a number of the natural class. -/
def natural? : Json → Option Nat
  | number (.natural n) => some n.val
  | _ => none

end Json

end CellGraph
