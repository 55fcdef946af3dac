/-!
# Parts of a text

Joining and splitting at a separator, and looking for a part at the front of a text or anywhere in
it.
-/

namespace CellGraph.Text

/-- The parts in order, with the separator between each two of them. -/
def joinWith (separator : List Char) : List (List Char) → List Char
  | [] => []
  | [part] => part
  | part :: parts => part ++ separator ++ joinWith separator parts

/-- The parts between the occurrences of a character; always at least one. -/
def splitOn (separator : Char) : List Char → List (List Char)
  | [] => [[]]
  | c :: s =>
    if c = separator then [] :: splitOn separator s
    else match splitOn separator s with
      | [] => [[c]]
      | part :: parts => (c :: part) :: parts

/-- What follows a given front part, if the text starts with it. -/
def dropFront? : List Char → List Char → Option (List Char)
  | [], s => some s
  | _ :: _, [] => none
  | c :: front, d :: s => if c = d then dropFront? front s else none

/-- The text before the first occurrence of a part, if there is one. -/
def before? (part : List Char) : List Char → Option (List Char)
  | [] => if part = [] then some [] else none
  | c :: s =>
    if (dropFront? part (c :: s)).isSome then some []
    else (before? part s).map (c :: ·)

/-- Whether a part occurs in the text. -/
def occurs (part s : List Char) : Bool :=
  (before? part s).isSome

end CellGraph.Text
