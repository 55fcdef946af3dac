import CellGraph.Text.Blank
import CellGraph.Text.Identifier
import CellGraph.Text.Parts

/-!
# Function text

The code of a cell travels as the text of a function: qualifiers, a name, a parameter list and a
body that is kept as it is. `FunctionText` is that text taken apart, `render` writes it and `parse?`
reads it.

Reading is generous about blanks in the header: parameters and the name are trimmed, and blanks
before the body are dropped. It is strict about the rest: `function` is a whole word, the parameter
list has no empty item, and the body is not empty.
-/

namespace CellGraph

open Text

/-- The four kinds of function, by their two qualifiers. -/
inductive FunctionKind where
  | plain
  | async
  | generator
  | asyncGenerator
deriving DecidableEq, Repr

namespace FunctionKind

/-- The kind with the given qualifiers. -/
def of : (isAsync isGenerator : Bool) → FunctionKind
  | false, false => plain
  | true, false => async
  | false, true => generator
  | true, true => asyncGenerator

/-- The word `async` as it is written. -/
def asyncWord : List Char := ['a', 's', 'y', 'n', 'c']

/-- The word `function` as it is written. -/
def functionWord : List Char := ['f', 'u', 'n', 'c', 't', 'i', 'o', 'n']

/-- The words that open a function of this kind. -/
def opening : FunctionKind → List Char
  | plain => functionWord
  | async => asyncWord ++ ' ' :: functionWord
  | generator => functionWord ++ ['*']
  | asyncGenerator => asyncWord ++ ' ' :: functionWord ++ ['*']

end FunctionKind

/-- A function taken apart. -/
structure FunctionText where
  kind : FunctionKind
  /-- Empty for a function without a name. -/
  name : String
  parameters : List String
  /-- The block, braces included. -/
  body : String
deriving DecidableEq, Repr

namespace FunctionText

/-- A block that returns one expression. -/
def returning (expression : List Char) : List Char :=
  "\x7b\nreturn (".toList ++ expression ++ ");\n\x7d".toList

/-- The characters of a function's text. -/
def renderChars (f : FunctionText) : List Char :=
  f.kind.opening ++ ' ' :: f.name.toList ++
    '(' :: joinWith [','] (f.parameters.map String.toList) ++ ')' :: ' ' :: f.body.toList

/-- The function as text. -/
def render (f : FunctionText) : String :=
  String.ofList f.renderChars

/-! ## Reading -/

variable [IdentifierTable]

/-- Reads the word `async` with at least one space or tab after it; a text that does not start so is
left as it is. -/
def readAsync (s : List Char) : Bool × List Char :=
  match dropFront? FunctionKind.asyncWord s with
  | some (c :: rest) =>
    if isInlineBlank c then (true, rest.dropWhile isInlineBlank) else (false, s)
  | _ => (false, s)

/-- Reads the word `function`, which no identifier character may follow. -/
def readFunction? (s : List Char) : Option (List Char) :=
  match dropFront? FunctionKind.functionWord s with
  | some (c :: rest) => if continuesIdentifier c then none else some (c :: rest)
  | other => other

/-- Reads a star, if the text starts with one. -/
def readStar : List Char → Bool × List Char
  | '*' :: rest => (true, rest)
  | s => (false, s)

/-- The parameters between the parentheses, each trimmed: none for an empty text, else the items
between the commas, of which none may be empty. -/
def readParameters? (s : List Char) : Option (List String) :=
  if s = [] then some []
  else
    let items := splitOn ',' s
    if items.any List.isEmpty then none
    else some (items.map fun item => String.ofList (trim item))

/-- Reads the characters of a function's text. -/
def parseChars? (s : List Char) : Option FunctionText := do
  let (isAsync, s) := readAsync s
  let s ← readFunction? s
  let (isGenerator, s) := readStar s
  let s := s.dropWhile isInlineBlank
  let name := s.takeWhile (· ≠ '(')
  let s ← dropFront? ['('] (s.dropWhile (· ≠ '('))
  let parameters ← readParameters? (s.takeWhile (· ≠ ')'))
  let s ← dropFront? [')'] (s.dropWhile (· ≠ ')'))
  let body := s.dropWhile isBlank
  guard (body ≠ [])
  return {
    kind := .of isAsync isGenerator
    name := String.ofList (trim name)
    parameters
    body := String.ofList body
  }

/-- Reads a function's text. -/
def parse? (code : String) : Option FunctionText :=
  parseChars? code.toList

end FunctionText

end CellGraph
