import CellGraph.Extraction.Constants
import CellGraph.Extraction.Form
import CellGraph.Extraction.Patch
import CellGraph.FunctionText
import CellGraph.Ast.Cell

/-!
# References

Turns a value cell into a function of what it refers to. Each canonical name becomes one parameter: a
plain reference keeps its own name, any other gets the token `$0`, `$1` and so on. Occurrences of
views and mutables in the body are replaced by their token.
-/

namespace CellGraph.Extraction

open Ast

/-- A value cell as a function of its references. -/
structure Extracted where
  /-- Canonical names, each once, in the order of first occurrence. -/
  references : List String
  /-- The parameters that stand for them, in the same order. -/
  parameters : List String
  code : String
  constants : Option Constants
deriving Repr

/-- What is known after some of the references. -/
structure Gathered where
  /-- The canonical names with their parameters. -/
  bound : List (String × String) := []
  patches : List Patch := []
  /-- How many tokens have been given out. -/
  issued : Nat := 0
deriving Repr

/-- The range of a node relative to the body, if the body's text has it. -/
def relative (bodyStart : Nat) (bodyText : List Char) (span : Span) : Except Error (Nat × Nat) :=
  let start := span.start - bodyStart
  let stop := span.stop - bodyStart
  if bodyStart ≤ span.start ∧ bodyStart ≤ span.stop ∧ (Text.slice? bodyText start stop).isSome then
    .ok (start, stop)
  else .error (.tree .occurrenceOutsideBody (some span))

/-- The nodes of the body that say the same as a reference: same kind and same inner name. -/
def occurrences (body reference : Node) : List Node :=
  body.walk.filter fun node =>
    node.kind = reference.kind ∧ node.innerName? = reference.innerName?

/-- Adds a patch for each of the given nodes. -/
def addPatches (bodyStart : Nat) (bodyText replacement : List Char) (nodes : List Node)
    (patches : List Patch) : Except Error (List Patch) :=
  nodes.foldlM (fun patches node => do
    let (start, stop) ← relative bodyStart bodyText node.span
    return Patch.insert { start, stop, text := replacement } patches) patches

/-- The token with a number. -/
def freshToken (k : Nat) : String :=
  "$" ++ toString k

/-- The parameter for a reference, and whether it is a newly issued token: the parameter already bound
to its canonical name, the own name of a plain reference, or the next token. -/
def chooseToken (g : Gathered) (reference : Node) : String × Bool :=
  match (canonicalName? reference).bind (g.bound.lookup ·) with
  | some token => (token, false)
  | none =>
    match Form.of reference, reference.name? with
    | .plain, some name => (name, false)
    | _, _ => (freshToken g.issued, true)

/-- Takes one reference into account. -/
def gather (body : Node) (bodyText : List Char) (g : Gathered) (reference : Node) :
    Except Error Gathered := do
  let (token, issued) := chooseToken g reference
  let patches ← match (Form.of reference).replacement? token with
    | some replacement =>
      addPatches body.span.start bodyText replacement.toList (occurrences body reference) g.patches
    | none => pure g.patches
  let canonical := (canonicalName? reference).getD token
  return {
    bound := if (g.bound.lookup canonical).isSome then g.bound else g.bound ++ [(canonical, token)]
    patches
    issued := if issued then g.issued + 1 else g.issued
  }

/-- The name of the function of a cell, empty if the cell declares none. -/
def declaredFunctionName (p : ParsedCell) : String :=
  match p.id?.bind canonicalName? with
  | some declared => functionName declared
  | none => ""

/-- The body of the function: a block as it is, an expression as the value that is returned. -/
def functionBody (kind : Kind) (text : List Char) : List Char :=
  match kind with
  | .blockStatement => text
  | _ => FunctionText.returning text

/-- A value cell as a function of its references. -/
def extract (p : ParsedCell) : Except Error Extracted := do
  let body ← p.body
  let bodyText ← p.text body
  let g ← p.references.foldlM (gather body bodyText) {}
  let text := (Patch.applyAll? bodyText g.patches).getD bodyText
  let function : FunctionText := {
    kind := .of p.cell.isAsync p.cell.isGenerator
    name := declaredFunctionName p
    parameters := g.bound.map Prod.snd
    body := String.ofList (functionBody body.kind text)
  }
  return {
    references := g.bound.map Prod.fst
    parameters := g.bound.map Prod.snd
    code := function.render
    constants := collectConstants body
  }

end CellGraph.Extraction
