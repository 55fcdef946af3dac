import CellGraph.Text.Blank
import CellGraph.Text.Parts

/-!
# Addresses of hosted notebooks

A hosted notebook is named by its id, `@owner/slug` or `d/` and a document id, or by the address of
its page or of its module. `Host.expand` brings all of these to the address of the module; any other
source stays as it is. Letters are compared without regard to case.
-/

namespace CellGraph

open Text

/-- Where the modules of hosted notebooks are found. -/
structure Host where
  /-- The address in front of the ids; slashes at its end do not count. -/
  origin : String := "https://api.observablehq.com"
  version : String := "3"
deriving DecidableEq, Repr

namespace Host

/-- The origin without the slashes at its end. -/
def base (h : Host) : List Char :=
  (h.origin.toList.reverse.dropWhile (· == '/')).reverse

/-- The characters of the address of a notebook's module. -/
def moduleChars (h : Host) (id : List Char) : List Char :=
  h.base ++ '/' :: id ++ ".js?v=".toList ++ h.version.toList

/-- The address of a notebook's module. -/
def moduleUrl (h : Host) (id : String) : String :=
  String.ofList (h.moduleChars id.toList)

end Host

namespace Address

/-! ## Letters without regard to case -/

/-- The lower-case form of the letters that have one in ASCII; the long s and the Kelvin sign count
as `s` and `k`. -/
def foldCase (c : Char) : Char :=
  if c.toNat = 0x17F then 's'
  else if c.toNat = 0x212A then 'k'
  else c.toLower

/-- What follows a front part given in lower case, compared without regard to case. -/
def dropFrontFolding? : List Char → List Char → Option (List Char)
  | [], s => some s
  | _ :: _, [] => none
  | c :: front, d :: s => if c = foldCase d then dropFrontFolding? front s else none

/-- The text without an ending given in lower case, if it has that ending. -/
def dropEndFolding (ending s : List Char) : List Char :=
  match dropFrontFolding? ending.reverse s.reverse with
  | some rest => rest.reverse
  | none => s

/-! ## Parts of an address -/

/-- Removes from every line the first mark and all that follows it. -/
def cutTails (mark : Char) : (skipping : Bool) → List Char → List Char
  | _, [] => []
  | skipping, c :: s =>
    if c = '\n' then c :: cutTails mark false s
    else if skipping ∨ c = mark then cutTails mark true s
    else c :: cutTails mark false s

/-- The source without fragments and queries. -/
def bare (s : List Char) : List Char :=
  cutTails '?' false (cutTails '#' false s)

/-- The id in the address of a page or of a module, or the text itself. -/
def idPart (s : List Char) : List Char :=
  match dropFrontFolding? "https://observablehq.com/".toList s with
  | some rest => rest
  | none =>
    match dropFrontFolding? "https://api.observablehq.com/".toList s with
    | some rest => dropEndFolding ['.', 'j', 's'] rest
    | none =>
      match dropFrontFolding? "https://beta.observablehq.com/".toList s with
      | some rest => dropEndFolding ['.', 'j', 's'] rest
      | none => s

/-- `@owner/slug`: no blanks, and a slash with something on either side of it after the `@`. -/
def isOwnerSlug : List Char → Bool
  | '@' :: rest => rest.all (fun c => !isBlank c) && (rest.drop 1).dropLast.contains '/'
  | _ => false

/-- `d/` and at least one letter or digit, and nothing else. -/
def isDocumentId (s : List Char) : Bool :=
  match dropFrontFolding? ['d', '/'] s with
  | some rest => rest ≠ [] && rest.all fun c => (foldCase c).isLower || c.isDigit
  | none => false

/-- The ids of hosted notebooks. -/
def isHostedId (s : List Char) : Bool :=
  isOwnerSlug s || isDocumentId s

end Address

open Address in
/-- The address of the module that an import's source names, or the source itself if it names no
hosted notebook. -/
def Host.expand (h : Host) (source : String) : String :=
  let id := idPart (bare source.toList)
  if isHostedId id then String.ofList (h.moduleChars id) else source

/-- The id in the address of a module of this host: what stands between the origin with its slashes
and the first `.js`. -/
def Host.idOfUrl? (h : Host) (url : String) : Option String := do
  let rest ← dropFront? h.base url.toList
  let id ← before? ['.', 'j', 's'] (rest.dropWhile (· == '/'))
  return String.ofList id

end CellGraph
