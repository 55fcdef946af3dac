/-!
# Lists by key

Lists of keyed values that keep the order in which the keys came in. Putting a value under a key that
is present replaces the value in its old place.
-/

namespace CellGraph.Keyed

variable {β : Type}

/-- Changes the value under a key in its place, or appends the key with a value made from nothing. -/
def alter (key : String) (f : Option β → β) : List (String × β) → List (String × β)
  | [] => [(key, f none)]
  | (k, v) :: rest => if k = key then (k, f (some v)) :: rest else (k, v) :: alter key f rest

/-- Puts a value under a key. -/
def put (key : String) (value : β) (entries : List (String × β)) : List (String × β) :=
  alter key (fun _ => value) entries

/-- The entries put in one after the other. -/
def ofList (entries : List (String × β)) : List (String × β) :=
  entries.foldl (fun kept (key, value) => put key value kept) []

end CellGraph.Keyed
